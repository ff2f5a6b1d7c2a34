import DutchAuction.Wal.Bincode
import DutchAuction.Wal.Writing

/-!
# What the log gives back

A history of one log directory: the log is opened, appended to, synced, dropped, and opened again,
and at any moment a crash may cut the final segment at any byte not before its last synced length.
Beside the directory and the open log, a history remembers what has been appended and how much of it
a completed sync covers.

Between any two steps the directory holds the frames of everything appended, less a part of the last
segment that no sync covers (`History.Stands`). So reading it back gives a prefix of what was
appended that keeps all that was synced, and opening it resumes behind that prefix.
-/

namespace DutchAuction

/-! ## Histories -/

/-- A log directory, the log that is open on it, and what has been done. -/
structure History where
  dir : Dir
  wal : Option Wal
  /-- The records appended, in order. Opening the log again forgets what is no longer there. -/
  appended : List LogRecord
  /-- What had been appended at the last completed sync. -/
  synced : List LogRecord
  /-- The last synced length of the final segment. -/
  platter : ℕ

/-- What can happen to a log. -/
inductive Operation
  | «open» (segmentBytes : U64)
  | append (record : LogRecord)
  | sync
  /-- Close the log: what is buffered is handed to the operating system. -/
  | drop
  /-- Lose power: the final segment is cut to its first `len` bytes. -/
  | crash (len : ℕ)

/-- Every segment keeps its whole records: it is cut at most, and reads the same. -/
def Codec.Keeps (c : Codec) (dir dir' : Dir) : Prop :=
  ∀ index bytes, dir.segs.get? index = some bytes → ∃ bytes' records trailing trailing',
    dir'.segs.get? index = some bytes' ∧ bytes' <+: bytes ∧
      c.readSegment index bytes = .ok ⟨records, trailing⟩ ∧
      c.readSegment index bytes' = .ok ⟨records, trailing'⟩

namespace History

/-- Nothing has been done. -/
def new : History := ⟨Dir.empty, none, [], [], 0⟩

/-- The files once an open log is closed. -/
def closed (h : History) : Dir :=
  match h.wal with
  | some w => (w.flush h.dir).2
  | none => h.dir

/-- Cut the final segment. -/
def cut (dir : Dir) (len : ℕ) : Dir :=
  match dir.segments.getLast? with
  | some (index, _) => dir.setLen index len
  | none => dir

/-- One operation and what it returns. A log that is open is not opened again, only an open log is
written to, and a crash keeps what is synced. -/
def step (c : Codec) (config : AuctionConfig) (h : History) :
    Operation → Option (History × Except WalError Unit)
  | .open segmentBytes =>
    match h.wal with
    | some _ => none
    | none =>
      match Wal.open c config segmentBytes h.dir with
      | (.ok w, dir) =>
        some ({ h with
          dir := dir
          wal := some w
          appended := (c.readAll h.dir).toOption.getD h.appended }, .ok ())
      | (.error e, dir) => some ({ h with dir := dir }, .error e)
  | .append record =>
    h.wal.map fun w ↦
      match w.append c h.dir record with
      | .ok (w', dir) =>
        ({ h with
          dir := dir
          wal := some w'
          appended := h.appended ++ [record]
          -- Nothing of a segment that was just started is synced.
          platter := if w'.activeIndex = w.activeIndex then h.platter else 0 }, .ok ())
      | .error e => (h, .error e)
  | .sync =>
    h.wal.map fun w ↦
      let r := w.sync h.dir
      ({ h with
        dir := r.2
        wal := some r.1
        synced := h.appended
        platter := ((r.2.segs.get? r.1.activeIndex).getD []).length }, .ok ())
  | .drop => h.wal.map fun _ ↦ ({ h with dir := h.closed, wal := none }, .ok ())
  | .crash len =>
    if h.platter ≤ len then some ({ h with dir := cut h.closed len, wal := none }, .ok ()) else none

/-- The histories of one directory. -/
abbrev Run (c : Codec) (config : AuctionConfig) :
    List (Runs.Transition History Operation (Except WalError Unit)) → History → Prop :=
  Runs.Run (step c config) new

/-! ## The invariant

All that was appended is kept beside the files, and what of it was synced. What is still in the
buffer is not in the final segment yet, and what no sync covers may have been lost from it. -/

/-- How the files stand to what has been done: the final segment has lost at most what no sync
covers. -/
structure Stands (c : Codec) (h : History) (log : Segments) (file : List UInt8) : Prop where
  holds : h.dir.Holds c log file
  numbered : log.sealed.length = log.index
  few : log.index < SEGMENTS
  written : file <+: c.frames log.active
  appended : h.appended = log.records
  gapless : Gapless log.records
  platter : h.platter ≤ file.length
  synced : ∃ records, records <+: log.active ∧ h.platter = (c.frames records).length ∧
    h.synced <+: log.sealed.flatMap Prod.snd ++ records
  wal : ∀ w, h.wal = some w → w.Writes c log file

/-- Nothing is there yet. -/
structure Fresh (h : History) : Prop where
  dir : h.dir.segs.entries = []
  wal : h.wal = none
  appended : h.appended = []
  synced : h.synced = []
  platter : h.platter = 0

/-- What holds between any two steps. -/
structure Valid (c : Codec) (config : AuctionConfig) (h : History) : Prop where
  manifest : h.dir.manifest = none ∨ h.dir.manifest = some (.ok config)
  files : h.Fresh ∨ ∃ log file, h.Stands c log file

theorem new_valid (c : Codec) (config : AuctionConfig) : new.Valid c config :=
  ⟨Or.inl rfl, Or.inl ⟨rfl, rfl, rfl, rfl, rfl⟩⟩

variable {c : Codec} {config : AuctionConfig} {h h' : History} {log : Segments}
  {file : List UInt8}

/-! ## Reading back

A final segment that was cut holds its first records whole and a torn tail, so what is read back is
a first part of what was appended. -/

namespace Stands

theorem whole (hc : c.Lawful) (hs : h.Stands c log file) :
    ∃ k tail, file = c.frames (log.active.take k) ++ tail ∧ Framing.Ends c.decode tail ∧
      h.platter ≤ (c.frames (log.active.take k)).length ∧
      ∃ records, records <+: log.active.take k ∧ h.platter = (c.frames records).length ∧
        h.synced <+: log.sealed.flatMap Prod.snd ++ records := by
  obtain ⟨k, tail, hfile, hend, -, -, hkeep⟩ :=
    Codec.readAll_cut hc hs.holds hs.written hs.few hs.gapless
  obtain ⟨records, hpre, hlen, hsynced⟩ := hs.synced
  have htake : records <+: log.active.take k := hkeep records hpre (hlen ▸ hs.platter)
  refine ⟨k, tail, hfile, hend, ?_, records, htake, hlen, hsynced⟩
  obtain ⟨rest, hrest⟩ := htake
  rw [hlen, ← hrest, Codec.frames_append, List.length_append]
  exact Nat.le_add_right _ _

theorem readAll (hc : c.Lawful) (hs : h.Stands c log file) {k : ℕ} {tail : List UInt8}
    (hfile : file = c.frames (log.active.take k) ++ tail) (hend : Framing.Ends c.decode tail) :
    c.readAll h.dir = .ok (log.sealed.flatMap Prod.snd ++ log.active.take k) := by
  have hholds : h.dir.Holds c { log with active := log.active.take k }
      (c.frames (log.active.take k) ++ tail) := hfile ▸ hs.holds.ascribe _
  have hgap : Gapless (log.sealed.flatMap Prod.snd ++ log.active.take k) :=
    hs.gapless.prefix (List.prefix_append_right_inj _ |>.mpr (List.take_prefix _ _))
  exact Codec.readAll_eq hc hholds hs.few hend hgap

end Stands

/-- **Reading back** gives a prefix of what was appended that keeps what was synced. -/
theorem Valid.readAll (hc : c.Lawful) (hv : h.Valid c config) :
    ∃ records, c.readAll h.dir = .ok records ∧ records <+: h.appended ∧ h.synced <+: records := by
  rcases hv.files with hfresh | ⟨log, file, hs⟩
  · refine ⟨[], ?_, List.nil_prefix, hfresh.synced ▸ List.nil_prefix⟩
    rw [Codec.readAll, Dir.segments, hfresh.dir]
    rfl
  · obtain ⟨k, tail, hfile, hend, -, records, hpre, -, hsynced⟩ := hs.whole hc
    refine ⟨_, hs.readAll hc hfile hend, ?_, hsynced.trans ?_⟩
    · rw [hs.appended]
      exact (List.prefix_append_right_inj _).mpr (List.take_prefix _ _)
    · exact (List.prefix_append_right_inj _).mpr hpre

/-! ## Every operation keeps the invariant -/

namespace Stands

theorem closed (hs : h.Stands c log file) :
    h.closed.manifest = h.dir.manifest ∧ ∃ file', h.closed.Holds c log file' ∧
      file <+: file' ∧ file' <+: c.frames log.active := by
  rw [History.closed]
  cases hwal : h.wal with
  | none => exact ⟨rfl, file, hs.holds, List.prefix_rfl, hs.written⟩
  | some w => exact ⟨rfl, _, (hs.wal w hwal).flush hs.holds, hs.written, List.prefix_rfl⟩

theorem shut (hs : h.Stands c log file) {dir : Dir} {file' : List UInt8}
    (hholds : dir.Holds c log file') (hwritten : file' <+: c.frames log.active)
    (hplatter : h.platter ≤ file'.length) :
    Stands c { h with dir := dir, wal := none } log file' where
  holds := hholds
  numbered := hs.numbered
  few := hs.few
  written := hwritten
  appended := hs.appended
  gapless := hs.gapless
  platter := hplatter
  synced := hs.synced
  wal := fun _ hwal ↦ absurd hwal.symm (Option.some_ne_none _)

theorem «open» (hc : c.Lawful) (hs : h.Stands c log file)
    (hmanifest : h.dir.manifest = none ∨ h.dir.manifest = some (.ok config)) (segmentBytes : U64) :
    ∃ w dir log' file', Wal.open c config segmentBytes h.dir = (.ok w, dir) ∧
      dir.manifest = some (.ok config) ∧
      Stands c ⟨dir, some w, (c.readAll h.dir).toOption.getD h.appended, h.synced, h.platter⟩ log'
        file' ∧
      log'.sealed = log.sealed ∧ log'.index = log.index ∧ file' = c.frames log'.active ∧
      ∃ tail, file = file' ++ tail ∧ Framing.Ends c.decode tail := by
  obtain ⟨k, tail, hfile, hend, hplatter, records, hpre, hlen, hsynced⟩ := hs.whole hc
  have hread := hs.readAll hc hfile hend
  have hgap : Gapless (log.sealed.flatMap Prod.snd ++ log.active.take k) :=
    hs.gapless.prefix ((List.prefix_append_right_inj _).mpr (List.take_prefix _ _))
  have hascribed : h.dir.Holds c { log with active := log.active.take k }
      (c.frames (log.active.take k) ++ tail) := hfile ▸ hs.holds.ascribe _
  obtain ⟨w, dir, hopen, hmanifest', hholds, hw⟩ :=
    Wal.open_holds hc hmanifest hascribed hs.few hend hgap segmentBytes
  refine ⟨w, dir, { log with active := log.active.take k }, _, hopen, hmanifest', ?_, rfl, rfl,
    rfl, tail, hfile, hend⟩
  exact
    { holds := hholds
      numbered := hs.numbered
      few := hs.few
      written := List.prefix_rfl
      appended := by rw [hread]; rfl
      gapless := hgap
      platter := hplatter
      synced := ⟨records, hpre, hlen, hsynced⟩
      wal := fun w' hw' ↦ Option.some.inj hw' ▸ hw }

theorem sync (hs : h.Stands c log file) {w : Wal} (hw : w.Writes c log file) :
    Stands c ⟨(w.sync h.dir).2, some (w.sync h.dir).1, h.appended, h.appended,
      (((w.sync h.dir).2.segs.get? (w.sync h.dir).1.activeIndex).getD []).length⟩ log
      (c.frames log.active) := by
  have hflush : (w.sync h.dir).2.Holds c log (c.frames log.active) := hw.flush hs.holds
  have hlen : (((w.sync h.dir).2.segs.get? (w.sync h.dir).1.activeIndex).getD []).length =
      (c.frames log.active).length := by
    rw [show (w.sync h.dir).1.activeIndex = log.index from hw.index, hflush.get?]
    rfl
  exact
    { holds := hflush
      numbered := hs.numbered
      few := hs.few
      written := List.prefix_rfl
      appended := hs.appended
      gapless := hs.gapless
      platter := hlen.le
      synced := ⟨log.active, List.prefix_rfl, hlen, hs.appended ▸ List.prefix_rfl⟩
      wal := fun w' hw' ↦ Option.some.inj hw' ▸
        ⟨hw.index, List.append_nil _, hw.size, hw.last⟩ }

theorem append (hs : h.Stands c log file) {w w' : Wal} {dir : Dir} {record : LogRecord}
    {log' : Segments} {file' : List UInt8} (hw : w.Writes c log file)
    (hnext : ∀ last ∈ h.appended.getLast?, last.seq.next = some record.seq)
    (hholds : dir.Holds c log' file') (hw' : w'.Writes c log' file')
    (hplaced : Wal.Placed log record file log' file')
    (hfew : dir.segs.entries.length ≤ SEGMENTS) :
    Stands c ⟨dir, some w', h.appended ++ [record], h.synced,
      if w'.activeIndex = w.activeIndex then h.platter else 0⟩ log' file' := by
  obtain ⟨records, hpre, hlen, hsynced⟩ := hs.synced
  have hgap : Gapless log'.records := by
    rw [hplaced.records, ← hs.appended]
    refine List.isChain_append.mpr ⟨hs.appended ▸ hs.gapless, List.isChain_singleton _, ?_⟩
    rintro last hlast _ ⟨rfl⟩
    exact hnext last hlast
  have happended : h.appended ++ [record] = log'.records := by rw [hplaced.records, hs.appended]
  have hwal : ∀ v, some w' = some v → v.Writes c log' file' :=
    fun v hv ↦ Option.some.inj hv ▸ hw'
  have hcount : log'.sealed.length + 1 ≤ SEGMENTS := by
    rw [hholds.entries, List.length_append, Segments.files, List.length_map] at hfew
    exact hfew
  cases hplaced with
  | here hfile =>
    have hsame : w'.activeIndex = w.activeIndex := hw'.index.trans hw.index.symm
    refine ⟨hholds, hs.numbered, hs.few, ⟨w'.buffer, hw'.bytes⟩, happended, hgap, ?_, ?_, hwal⟩
    · rw [if_pos hsame]
      exact hs.platter.trans hfile.length_le
    · rw [if_pos hsame]
      exact ⟨records, hpre.trans (List.prefix_append _ _), hlen, hsynced⟩
  | rolled =>
    have hother : w'.activeIndex ≠ w.activeIndex := by
      rw [hw'.index, hw.index]
      exact Nat.succ_ne_self _
    have hnumbered : (log.sealed ++ [(log.index, log.active)]).length = log.index + 1 := by
      rw [List.length_append, hs.numbered]
      rfl
    refine ⟨hholds, hnumbered, ?_, ⟨w'.buffer, hw'.bytes⟩, happended, hgap, ?_, ?_, hwal⟩
    · show log.index + 1 < SEGMENTS
      rw [← hnumbered]
      exact hcount
    · rw [if_neg hother]
      exact Nat.zero_le _
    · rw [if_neg hother]
      refine ⟨[], List.nil_prefix, rfl, ?_⟩
      rw [List.append_nil, List.flatMap_append, List.flatMap_singleton]
      exact hsynced.trans ((List.prefix_append_right_inj _).mpr hpre)

end Stands

/-- The record is the next one, or the first. -/
def Next (h : History) (record : LogRecord) : Prop :=
  ∀ last ∈ h.appended.getLast?, last.seq.next = some record.seq

/-- **Appending** to an open log accepts the next record and changes nothing for any other. -/
theorem Valid.append (hc : c.Lawful) (hv : h.Valid c config) {w : Wal} (hwal : h.wal = some w)
    (record : LogRecord) :
    (h.Next record → ∃ w' dir log file log' file', h.step c config (.append record) =
        some (⟨dir, some w', h.appended ++ [record], h.synced,
          if w'.activeIndex = w.activeIndex then h.platter else 0⟩, .ok ()) ∧
      dir.manifest = h.dir.manifest ∧ h.Stands c log file ∧ dir.Holds c log' file' ∧
      w'.Writes c log' file' ∧ Wal.Placed log record file log' file') ∧
    (¬h.Next record → ∃ e, h.step c config (.append record) = some (h, .error e)) := by
  rcases hv.files with hfresh | ⟨log, file, hs⟩
  · rw [hfresh.wal] at hwal
    cases hwal
  have hw := hs.wal w hwal
  have hlast : ∀ prev ∈ w.appended, ∃ last ∈ h.appended.getLast?, last.seq = prev := by
    intro prev hprev
    rw [hw.last, ← hs.appended] at hprev
    obtain ⟨last, hlast, heq⟩ := Option.map_eq_some_iff.mp hprev
    exact ⟨last, hlast, heq⟩
  refine ⟨fun hnext ↦ ?_, fun hnext ↦ ?_⟩
  · obtain ⟨w', dir, log', file', hput, hmanifest, hholds, hw', hplaced⟩ :=
      hw.put hc hs.holds record
    refine ⟨w', dir, log, file, log', file', ?_, hmanifest, hs, hholds, hw', hplaced⟩
    rw [step, hwal, Option.map_some, Wal.append_eq_put fun prev hprev ↦ ?_, hput]
    obtain ⟨last, hlast, rfl⟩ := hlast prev hprev
    exact hnext last hlast
  · rw [Next] at hnext
    push Not at hnext
    obtain ⟨last, hlast, hne⟩ := hnext
    refine ⟨.sequenceGap last.seq record.seq, ?_⟩
    have hprev : w.appended = some last.seq := by
      rw [hw.last, ← hs.appended, hlast]
      rfl
    rw [step, hwal, Option.map_some, Wal.append_eq_error hprev hne]

theorem Stands.keeps (hc : c.Lawful) (hs : h.Stands c log file) {log' : Segments}
    {file' tail : List UInt8} (hs' : h'.Stands c log' file') (hsealed : log'.sealed = log.sealed)
    (hindex : log'.index = log.index) (hwhole : file' = c.frames log'.active)
    (hfile : file = file' ++ tail) (hend : Framing.Ends c.decode tail) :
    c.Keeps h.dir h'.dir := by
  intro index bytes hbytes
  have hmem := OrdMap.get?_eq_some.mp hbytes
  rw [hs.holds.entries] at hmem
  rcases List.mem_append.mp hmem with hmem | hmem
  · have hmem' : (index, bytes) ∈ h'.dir.segs.entries := by
      rw [hs'.holds.entries, Segments.files, hsealed]
      exact List.mem_append_left _ hmem
    obtain ⟨e, -, heq⟩ := List.mem_map.mp hmem
    cases heq
    have hread := hc.readSegment_frames e.1 e.2
    exact ⟨_, _, _, _, OrdMap.get?_eq_some.mpr hmem', List.prefix_rfl, hread, hread⟩
  · cases List.mem_singleton.mp hmem
    have hread := hc.readSegment_frames log.index log'.active
    refine ⟨file', log'.active, tail.length, 0, hindex ▸ hs'.holds.get?, ⟨tail, hfile.symm⟩, ?_,
      hwhole ▸ hread⟩
    rw [hfile, hwhole]
    exact hc.readSegment log.index log'.active hend

theorem Valid.open (hc : c.Lawful) (hv : h.Valid c config) (hwal : h.wal = none)
    (segmentBytes : U64) :
    ∃ h' log file, h.step c config (.open segmentBytes) = some (h', .ok ()) ∧
      h'.dir.manifest = some (.ok config) ∧ h'.Stands c log file ∧
      c.readAll h.dir = .ok h'.appended ∧ c.readAll h'.dir = .ok h'.appended ∧
      c.Keeps h.dir h'.dir := by
  obtain ⟨records, hread, -, -⟩ := hv.readAll hc
  rcases hv.files with hfresh | ⟨log, file, hs⟩
  · obtain ⟨w, dir, hopen, hmanifest, hholds, hw⟩ :=
      Wal.open_empty (c := c) hv.manifest hfresh.dir segmentBytes
    have hnil : c.readAll h.dir = .ok [] := by
      rw [Codec.readAll, Dir.segments, hfresh.dir]
      rfl
    have hs : Stands c ⟨dir, some w, [], h.synced, h.platter⟩ ⟨[], 0, []⟩ [] :=
        { holds := hholds
          numbered := rfl
          few := by decide
          written := List.nil_prefix
          appended := rfl
          gapless := List.IsChain.nil
          platter := hfresh.platter.le
          synced := ⟨[], List.nil_prefix, hfresh.platter, hfresh.synced ▸ List.nil_prefix⟩
          wal := fun w' hw' ↦ Option.some.inj hw' ▸ hw }
    refine ⟨_, ⟨[], 0, []⟩, [], ?_, hmanifest, hs, hnil, hs.readAll hc (k := 0) rfl (Or.inl rfl),
      fun index bytes hbytes ↦ ?_⟩
    · rw [step, hwal]
      dsimp only
      rw [hopen, hnil]
      rfl
    · rw [OrdMap.get?_eq_some, hfresh.dir] at hbytes
      exact absurd hbytes List.not_mem_nil
  · obtain ⟨w, dir, log', file', hopen, hmanifest, hs', hsealed, hindex, hwhole, tail, hfile,
      hend⟩ :=
      hs.open hc hv.manifest segmentBytes
    have hall : file' = c.frames (log'.active.take log'.active.length) ++ [] := by
      rw [List.take_length, List.append_nil, hwhole]
    have hread' := hs'.readAll hc hall (Or.inl rfl)
    rw [List.take_length] at hread'
    refine ⟨_, log', file', ?_, hmanifest, hs', ?_, ?_,
      hs.keeps hc hs' hsealed hindex hwhole hfile hend⟩
    · rw [step, hwal]
      dsimp only
      rw [hopen]
    · rw [hread]
      rfl
    · rw [hs'.appended]
      exact hread'

/-- **What one operation keeps.** -/
theorem Valid.step (hc : c.Lawful) (hv : h.Valid c config) {op : Operation}
    {out : Except WalError Unit} (hstep : h.step c config op = some (h', out))
    (hfew : h'.dir.segs.entries.length ≤ SEGMENTS) : h'.Valid c config := by
  cases op with
  | «open» segmentBytes =>
    have hwal : h.wal = none := by
      rcases hw : h.wal with _ | w
      · rfl
      · rw [History.step, hw] at hstep
        cases hstep
    obtain ⟨h'', log, file, heq, hmanifest, hs, -⟩ := hv.open hc hwal segmentBytes
    rw [heq] at hstep
    cases hstep
    exact ⟨Or.inr hmanifest, Or.inr ⟨log, file, hs⟩⟩
  | append record =>
    obtain ⟨w, hwal, -⟩ := Option.map_eq_some_iff.mp hstep
    by_cases hnext : h.Next record
    · obtain ⟨w', dir, log, file, log', file', heq, hmanifest, hs, hholds, hw', hplaced⟩ :=
        (hv.append hc hwal record).1 hnext
      rw [heq] at hstep
      cases hstep
      exact ⟨hmanifest ▸ hv.manifest, Or.inr
        ⟨log', file', hs.append (hs.wal w hwal) hnext hholds hw' hplaced hfew⟩⟩
    · obtain ⟨e, heq⟩ := (hv.append hc hwal record).2 hnext
      rw [heq] at hstep
      cases hstep
      exact hv
  | sync =>
    obtain ⟨w, hwal, heq⟩ := Option.map_eq_some_iff.mp hstep
    cases heq
    rcases hv.files with hfresh | ⟨log, file, hs⟩
    · rw [hfresh.wal] at hwal
      cases hwal
    · exact ⟨hv.manifest, Or.inr ⟨log, _, hs.sync (hs.wal w hwal)⟩⟩
  | drop =>
    obtain ⟨w, hwal, heq⟩ := Option.map_eq_some_iff.mp hstep
    cases heq
    rcases hv.files with hfresh | ⟨log, file, hs⟩
    · rw [hfresh.wal] at hwal
      cases hwal
    · obtain ⟨hmanifest, file', hholds, hmore, hwritten⟩ := hs.closed
      exact ⟨hmanifest ▸ hv.manifest, Or.inr
        ⟨log, file', hs.shut hholds hwritten (hs.platter.trans hmore.length_le)⟩⟩
  | crash len =>
    rw [History.step] at hstep
    split_ifs at hstep with hlen
    cases hstep
    rcases hv.files with hfresh | ⟨log, file, hs⟩
    · have hclosed : h.closed = h.dir := by rw [History.closed, hfresh.wal]
      have hcut : cut h.closed len = h.dir := by
        rw [cut, hclosed, Dir.segments, hfresh.dir]
        rfl
      rw [hcut]
      exact ⟨hv.manifest, Or.inl ⟨hfresh.dir, rfl, hfresh.appended, hfresh.synced, hfresh.platter⟩⟩
    · obtain ⟨hmanifest, file', hholds, hmore, hwritten⟩ := hs.closed
      have hcut : cut h.closed len = h.closed.setLen log.index len := by
        rw [cut, hholds.segments hs.few, List.getLast?_append]
        rfl
      rw [hcut]
      refine ⟨hmanifest ▸ hv.manifest, Or.inr ⟨log, file'.take len, hs.shut (hholds.setLen len)
        ((List.take_prefix _ _).trans hwritten) ?_⟩⟩
      rw [List.length_take]
      exact le_min hlen (hs.platter.trans hmore.length_le)

variable {tr : List (Runs.Transition History Operation (Except WalError Unit))}

/-- **What every history keeps.** -/
theorem run_valid (hc : c.Lawful) (hrun : Run c config tr h)
    (hfew : ∀ t ∈ tr, t.post.dir.segs.entries.length ≤ SEGMENTS) : h.Valid c config :=
  hrun.invariant_of (P := Valid c config)
    (C := fun t ↦ t.post.dir.segs.entries.length ≤ SEGMENTS) (new_valid c config)
    (fun _ _ _ _ hv hstep hfew ↦ hv.step hc hstep hfew) hfew

theorem manifest_first (hrun : Run c config tr h) (hnone : h.dir.manifest = none) :
    h.dir.segs.entries = [] := by
  refine (hrun.invariant
    (P := fun h ↦ h.dir.manifest = none → h.dir.segs.entries = [] ∧ h.wal = none)
    (fun _ ↦ ⟨rfl, rfl⟩) (fun h op h' out ih hstep hnone ↦ ?_) hnone).1
  cases op with
  | «open» segmentBytes =>
    rw [step] at hstep
    split at hstep
    · cases hstep
    · rename_i hwal
      split at hstep
      · rename_i w dir' hopen
        cases hstep
        rcases Wal.open_manifest hopen with hsome | ⟨-, hfails⟩
        · exact absurd hnone hsome
        · exact absurd rfl (hfails w)
      · rename_i e dir' hopen
        cases hstep
        rcases Wal.open_manifest hopen with hsome | ⟨rfl, -⟩
        · exact absurd hnone hsome
        · exact ⟨(ih hnone).1, hwal⟩
  | append record =>
    obtain ⟨w, hw, heq⟩ := Option.map_eq_some_iff.mp hstep
    have hopen : h.dir.manifest ≠ none := by
      intro hnone
      rw [(ih hnone).2] at hw
      cases hw
    split at heq
    · rename_i happend
      cases heq
      exact absurd ((Wal.append_manifest happend).symm.trans hnone) hopen
    · cases heq
      exact absurd hnone hopen
  | sync =>
    obtain ⟨w, hw, heq⟩ := Option.map_eq_some_iff.mp hstep
    cases heq
    rw [(ih hnone).2] at hw
    cases hw
  | drop =>
    obtain ⟨w, hw, heq⟩ := Option.map_eq_some_iff.mp hstep
    cases heq
    rw [closed, hw] at hnone
    rw [(ih hnone).2] at hw
    cases hw
  | crash len =>
    rw [step] at hstep
    split_ifs at hstep
    cases hstep
    have hclosed : h.closed.manifest = h.dir.manifest := by
      rw [closed]
      split
      · rfl
      · rfl
    have hcut : ∀ dir, (cut dir len).manifest = dir.manifest := by
      intro dir
      rw [cut]
      split
      · rfl
      · rfl
    obtain ⟨hempty, hwal⟩ := ih (hclosed.symm.trans ((hcut _).symm.trans hnone))
    have hnothing : cut h.closed len = h.dir := by
      rw [closed, hwal, cut, Dir.segments]
      dsimp only
      rw [hempty]
      rfl
    exact ⟨(congrArg (fun d ↦ d.segs.entries) hnothing).trans hempty, rfl⟩

/-! ## The log gives back what was put in -/

/-- What the log promises in a state of its history. -/
structure GivesBack (c : Codec) (config : AuctionConfig) (h : History) : Prop where
  /-- Reading back gives a prefix of what was appended that keeps what was synced. -/
  reads : ∃ records, c.readAll h.dir = .ok records ∧ records <+: h.appended ∧ h.synced <+: records
  /-- A log that is not open can be opened; it resumes behind what was read back, which is still
  there, and no whole record is cut off or changed. -/
  resumes : h.wal = none → ∀ segmentBytes, ∃ h',
    h.step c config (.open segmentBytes) = some (h', .ok ()) ∧
      c.readAll h.dir = .ok h'.appended ∧ c.readAll h'.dir = .ok h'.appended ∧
      c.Keeps h.dir h'.dir
  /-- An open log takes the record next in sequence, or any as the first, -/
  accepts : h.wal.isSome → ∀ record, h.Next record →
    ∃ h', h.step c config (.append record) = some (h', .ok ()) ∧
      h'.appended = h.appended ++ [record]
  /-- and refuses any other without changing anything. -/
  rejects : h.wal.isSome → ∀ record, ¬h.Next record →
    ∃ e, h.step c config (.append record) = some (h, .error e)

/-- **The log gives back what was put in**, through rotation, reopening and torn tails. -/
theorem log_gives_back (hc : c.Lawful) (hrun : Run c config tr h)
    (hfew : ∀ t ∈ tr, t.post.dir.segs.entries.length ≤ SEGMENTS) : h.GivesBack c config := by
  have hv := run_valid hc hrun hfew
  refine ⟨hv.readAll hc, fun hwal segmentBytes ↦ ?_, fun hwal record hnext ↦ ?_,
    fun hwal record hnext ↦ ?_⟩
  · obtain ⟨h', log, file, hstep, -, -, hread, hread', hkeeps⟩ := hv.open hc hwal segmentBytes
    exact ⟨h', hstep, hread, hread', hkeeps⟩
  · obtain ⟨w, hw⟩ := Option.isSome_iff_exists.mp hwal
    obtain ⟨w', dir, log, file, log', file', hstep, -⟩ := (hv.append hc hw record).1 hnext
    exact ⟨_, hstep, rfl⟩
  · obtain ⟨w, hw⟩ := Option.isSome_iff_exists.mp hwal
    exact (hv.append hc hw record).2 hnext

/-- Segments of one record each; one is synced, two follow, and a crash leaves nine bytes of the
last. -/
def sampleOperations : List Operation :=
  [.open 1, .append ⟨0, 0, .open⟩, .sync, .append ⟨1, 0, .tick⟩,
    .append ⟨2, 0, .tick⟩, .crash 9, .open 1]

theorem log_gives_back_sample :
    (Runs.play (step Bincode.codec (.sample 0)) new sampleOperations).2.GivesBack Bincode.codec
      (.sample 0) :=
  log_gives_back Bincode.lawful (Runs.run_play _ _ _) (by decide +kernel)

/-- **An empty log takes any record**: nothing was appended before it was opened again, and it
accepts sequence number seven. -/
theorem empty_log_takes_any :
    ∃ tr h h', Run Bincode.codec (.sample 0) tr h ∧ h.appended = [] ∧ h.wal.isSome ∧
      h.step Bincode.codec (.sample 0) (.append ⟨7, 0, .tick⟩) = some (h', .ok ()) ∧
      7 ≠ Seq.START := by
  let operations : List Operation := [.open 1, .drop, .open 1]
  have hrun := Runs.run_play (step Bincode.codec (.sample 0)) new operations
  have hnil : (Runs.play (step Bincode.codec (.sample 0)) new operations).2.appended = [] := rfl
  have hv := run_valid Bincode.lawful hrun (by decide +kernel)
  obtain ⟨w, hw⟩ :
      ∃ w, (Runs.play (step Bincode.codec (.sample 0)) new operations).2.wal = some w := ⟨_, rfl⟩
  obtain ⟨w', dir, log, file, log', file', hstep, -⟩ :=
    (hv.append Bincode.lawful hw ⟨7, 0, .tick⟩).1 fun last hlast ↦ by
      rw [hnil] at hlast
      cases hlast
  exact ⟨_, _, _, hrun, hnil, by rw [hw]; rfl, hstep, by decide⟩

end History

end DutchAuction
