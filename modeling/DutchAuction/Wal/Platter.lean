import DutchAuction.Wal.Bincode
import DutchAuction.Wal.Commit
import DutchAuction.Wal.Disk

/-!
# What is on the platter

A byte that is written passes through two places before it is safe: the buffer of the process, which
a kill loses, and the cache of the operating system, which loses power with the machine. What the
operating system shows is the cache over the platter, so a log that is read back after a kill may
hold records that are on no platter.

`Medium` keeps, beside the files as they are shown, how much of each is on the platter. A record
`Survives` if it reads back after every power loss that could happen now, and `Lasts` if it does so
for good. Between any two steps only the last segment can be ahead of the platter (`Stands`), and no
step loses what has survived (`Valid.step`). So everything that a log holds durable lasts as long as
it was a sync that made it so: the log that is opened must find its last segment on the platter, or
end in a torn tail, which is cut off with a sync (`watermark_sound_iff`).
-/

namespace DutchAuction

/-! ## The medium

A write puts bytes into the cache of the operating system and a sync brings a file to the platter.
A kill keeps the cache; a power loss keeps what is on the platter, and may keep more. -/

namespace Dir

/-- How long a segment is. -/
def lengthOf (dir : Dir) (index : ℕ) : ℕ := ((dir.segs.get? index).getD []).length

/-- The segment with the highest number. -/
def lastIndex (dir : Dir) : ℕ := dir.segs.maxKey?.getD 0

end Dir

/-- A log directory as the operating system shows it, and the log that a process has open on it. -/
structure Medium where
  dir : Dir
  wal : Option Wal
  /-- How many bytes of each segment are on the platter. -/
  platter : ℕ → ℕ
  /-- The records of the open log, in order: those it found when it was opened, and those appended
  since. -/
  written : List LogRecord

namespace Medium

/-- Nothing is there. -/
def new : Medium := ⟨Dir.empty, none, fun _ ↦ 0, []⟩

/-- What a power loss leaves: the first `len` bytes of the last segment, and of any other what is on
the platter. -/
def lose (m : Medium) (len : ℕ) : Dir :=
  { m.dir with segs := m.dir.segs.mapEntries fun index bytes ↦
      bytes.take (if index = m.dir.lastIndex then len else m.platter index) }

/-- A file is synced: all of it is on the platter. -/
def settle (platter : ℕ → ℕ) (dir : Dir) (index : ℕ) : ℕ → ℕ :=
  Function.update platter index (dir.lengthOf index)

/-- What can happen. -/
inductive Operation
  | «open» (segmentBytes : U64)
  | append (record : LogRecord)
  | sync
  | rotate
  /-- The first `n` bytes of the buffer are handed to the operating system. -/
  | spill (n : ℕ)
  /-- The process is gone, and what it buffered with it. -/
  | kill
  /-- The first `len` bytes of the last segment are left. -/
  | powerLoss (len : ℕ)
deriving DecidableEq

/-- The segment ends in bytes that are no whole record. -/
def torn (c : Codec) (dir : Dir) (index : ℕ) : Bool :=
  match dir.segs.get? index with
  | none => false
  | some bytes =>
    match c.readSegment index bytes with
    | .ok contents => 0 < contents.trailingBytes
    | .error _ => false

/-- One operation and what it returns. A log that is open is not opened again, only an open log is
written to, and a power loss keeps what is on the platter. -/
def step (c : Codec) (config : AuctionConfig) (m : Medium) :
    Operation → Option (Medium × Except WalError Unit)
  | .open segmentBytes =>
    match m.wal with
    | some _ => none
    | none =>
      match Wal.open c config segmentBytes m.dir with
      | (.ok w, dir) =>
        some ({
          dir := dir
          wal := some w
          -- Cutting off a torn tail ends with a sync, and opening without one does not.
          platter :=
            if torn c m.dir w.activeIndex then settle m.platter dir w.activeIndex else m.platter
          written := (c.readAll m.dir).toOption.getD [] }, .ok ())
      | (.error e, dir) => some ({ m with dir := dir }, .error e)
  | .append record =>
    m.wal.map fun w ↦
      match w.append c m.dir record with
      | .ok (w', dir) =>
        ({
          dir := dir
          wal := some w'
          -- A segment is synced before the next is started.
          platter :=
            if w'.activeIndex = w.activeIndex then m.platter
            else settle m.platter dir w.activeIndex
          written := m.written ++ [record] }, .ok ())
      | .error e => (m, .error e)
  | .sync =>
    m.wal.map fun w ↦
      let r := w.sync m.dir
      ({ m with
        dir := r.2
        wal := some r.1
        platter := settle m.platter r.2 w.activeIndex }, .ok ())
  | .rotate =>
    m.wal.map fun w ↦
      let r := w.rotate m.dir
      ({ m with
        dir := r.2
        wal := some r.1
        platter := settle m.platter r.2 w.activeIndex }, .ok ())
  | .spill n =>
    m.wal.map fun w ↦
      ({ m with
        dir := m.dir.write w.activeIndex (w.buffer.take n)
        wal := some { w with buffer := w.buffer.drop n } }, .ok ())
  | .kill => some ({ m with wal := none }, .ok ())
  | .powerLoss len =>
    if m.platter m.dir.lastIndex ≤ len then
      some ({ m with
        dir := m.lose len
        wal := none
        platter := (m.lose len).lengthOf }, .ok ())
    else none

/-- The runs of one directory, from when there is none. -/
abbrev Run (c : Codec) (config : AuctionConfig) :
    List (Runs.Transition Medium Operation (Except WalError Unit)) → Medium → Prop :=
  Runs.Run (step c config) new

/-! ## The invariant -/

/-- The record is read back, whatever a power loss leaves. -/
def Survives (c : Codec) (m : Medium) (r : LogRecord) : Prop :=
  ∀ len, m.platter m.dir.lastIndex ≤ len →
    ∃ records, c.readAll (m.lose len) = .ok records ∧ r ∈ records

/-- How the files stand to the records: sealed segments are on the platter, and a log that is open
holds nothing durable beyond what it was given. -/
structure Stands (c : Codec) (m : Medium) (log : Segments) (file : List UInt8) : Prop where
  holds : m.dir.Holds c log file
  numbered : log.sealed.length = log.index
  few : log.index < SEGMENTS
  front : file <+: c.frames log.active
  gapless : Gapless log.records
  sealed : ∀ e ∈ log.files c, e.2.length ≤ m.platter e.1
  platter : m.platter log.index ≤ file.length
  unstarted : ∀ i, log.index < i → m.platter i = 0
  wal : ∀ w, m.wal = some w → w.Writes c log file ∧ m.written = log.records ∧
    w.durable ≤ w.appended

/-- Nothing is there yet. -/
structure Fresh (m : Medium) : Prop where
  dir : m.dir.segs.entries = []
  wal : m.wal = none
  platter : ∀ i, m.platter i = 0

/-- What holds between any two steps. -/
structure Valid (c : Codec) (config : AuctionConfig) (m : Medium) : Prop where
  manifest : m.dir.manifest = none ∨ m.dir.manifest = some (.ok config)
  files : m.Fresh ∨ ∃ log file, m.Stands c log file

theorem new_valid (c : Codec) (config : AuctionConfig) : new.Valid c config :=
  ⟨Or.inl rfl, Or.inl ⟨rfl, rfl, fun _ ↦ rfl⟩⟩

variable {c : Codec} {config : AuctionConfig} {m m' : Medium} {log log' : Segments}
  {file file' : List UInt8} {r : LogRecord}

end Medium

namespace Dir.Holds

variable {c : Codec} {dir : Dir} {log : Segments} {bytes : List UInt8}

theorem lastIndex (h : dir.Holds c log bytes) : dir.lastIndex = log.index := by
  rw [Dir.lastIndex, OrdMap.maxKey?, h.entries, List.getLast?_append]
  rfl

theorem lengthOf (h : dir.Holds c log bytes) : dir.lengthOf log.index = bytes.length := by
  rw [Dir.lengthOf, h.get?]
  rfl

theorem lengthOf_sealed (h : dir.Holds c log bytes) {e : ℕ × List UInt8} (he : e ∈ log.files c) :
    dir.lengthOf e.1 = e.2.length := by
  have hget : dir.segs.get? e.1 = some e.2 :=
    OrdMap.get?_eq_some.mpr (h.entries ▸ List.mem_append_left _ he)
  rw [Dir.lengthOf, hget]
  rfl

theorem lengthOf_unstarted (h : dir.Holds c log bytes) {i : ℕ} (hi : log.index < i) :
    dir.lengthOf i = 0 := by
  have hget : dir.segs.get? i = none := by
    refine Option.eq_none_iff_forall_not_mem.mpr fun bytes' hbytes ↦ ?_
    have hmem := OrdMap.get?_eq_some.mp hbytes
    rw [h.entries] at hmem
    rcases List.mem_append.mp hmem with hmem | hmem
    · exact absurd (h.lt_index _ hmem) (by dsimp only; omega)
    · cases List.mem_singleton.mp hmem
      exact lt_irrefl _ hi
  rw [Dir.lengthOf, hget]
  rfl

end Dir.Holds

namespace Medium

variable {c : Codec} {config : AuctionConfig} {m m' : Medium} {log log' : Segments}
  {file file' : List UInt8} {r : LogRecord}

/-! ## Reading back -/

namespace Stands

theorem whole (hc : c.Lawful) (hs : m.Stands c log file) :
    ∃ k tail, file = c.frames (log.active.take k) ++ tail ∧ Framing.Ends c.decode tail ∧
      Gapless (log.sealed.flatMap Prod.snd ++ log.active.take k) ∧
      c.readAll m.dir = .ok (log.sealed.flatMap Prod.snd ++ log.active.take k) ∧
      ∀ records, records <+: log.active → (c.frames records).length ≤ file.length →
        records <+: log.active.take k :=
  Codec.readAll_cut hc hs.holds hs.front hs.few hs.gapless

theorem lose (hs : m.Stands c log file) (len : ℕ) : (m.lose len).Holds c log (file.take len) := by
  have hfiles : (log.files c).map (fun e ↦
      (e.1, e.2.take (if e.1 = m.dir.lastIndex then len else m.platter e.1))) = log.files c := by
    refine (List.map_congr_left fun e he ↦ ?_).trans (List.map_id _)
    have hlt := hs.holds.lt_index e he
    rw [hs.holds.lastIndex, if_neg hlt.ne, List.take_of_length_le (hs.sealed e he)]
    rfl
  refine ⟨?_⟩
  rw [Medium.lose]
  dsimp only
  rw [OrdMap.entries_mapEntries, hs.holds.entries, List.map_append, hfiles, List.map_singleton,
    hs.holds.lastIndex, if_pos rfl]

theorem powerLoss (hs : m.Stands c log file) (len : ℕ) :
    Stands c { m with dir := m.lose len, wal := none, platter := (m.lose len).lengthOf } log
      (file.take len) where
  holds := hs.lose len
  numbered := hs.numbered
  few := hs.few
  front := (List.take_prefix _ _).trans hs.front
  gapless := hs.gapless
  sealed _ he := ((hs.lose len).lengthOf_sealed he).ge
  platter := (hs.lose len).lengthOf.le
  unstarted _ hi := (hs.lose len).lengthOf_unstarted hi
  wal _ hw := absurd hw.symm (Option.some_ne_none _)

/-- **What survives** is what was sealed, and the records of the last segment whose frames are on
the platter. -/
theorem survives_iff (hc : c.Lawful) (hs : m.Stands c log file) :
    m.Survives c r ↔ r ∈ log.sealed.flatMap Prod.snd ∨ ∃ records, records <+: log.active ∧
      (c.frames records).length ≤ m.platter log.index ∧ r ∈ records := by
  refine ⟨fun hsurvives ↦ ?_, fun hkept len hlen ↦ ?_⟩
  · obtain ⟨k, tail, hfile, -, -, hread, -⟩ := (hs.powerLoss (m.platter log.index)).whole hc
    obtain ⟨records, hread', hr⟩ := hsurvives (m.platter log.index) (hs.holds.lastIndex ▸ le_rfl)
    cases hread.symm.trans hread'
    refine (List.mem_append.mp hr).imp_right fun hr ↦ ⟨_, List.take_prefix _ _, ?_, hr⟩
    have hlen := congrArg List.length hfile
    rw [List.length_take, List.length_append] at hlen
    omega
  · rw [hs.holds.lastIndex] at hlen
    obtain ⟨k, tail, hfile, -, -, hread, hmax⟩ := (hs.powerLoss len).whole hc
    refine ⟨_, hread, List.mem_append.mpr (hkept.imp_right ?_)⟩
    rintro ⟨records, hpre, hframes, hr⟩
    refine (hmax records hpre ?_).subset hr
    rw [List.length_take]
    exact le_min (hframes.trans hlen) (hframes.trans hs.platter)

/-! ## What the operations do

Spilling the buffer moves bytes to the file, a sync brings all of the file to the platter, and
rotating syncs before it starts a segment that has nothing there. Opening syncs only if it cuts. -/

theorem survives_all (hc : c.Lawful) (hs : m.Stands c log file)
    (hsettled : (c.frames log.active).length ≤ m.platter log.index) (hr : r ∈ log.records) :
    m.Survives c r :=
  (hs.survives_iff hc).mpr
    ((List.mem_append.mp hr).imp_right fun hr ↦ ⟨_, List.prefix_rfl, hsettled, hr⟩)

theorem kill (hs : m.Stands c log file) : Stands c { m with wal := none } log file :=
  { hs with wal := fun _ hw ↦ absurd hw.symm (Option.some_ne_none _) }

theorem spill (hs : m.Stands c log file) {w : Wal} (hw : m.wal = some w) (n : ℕ) :
    Stands c { m with
      dir := m.dir.write w.activeIndex (w.buffer.take n)
      wal := some { w with buffer := w.buffer.drop n } } log (file ++ w.buffer.take n) := by
  obtain ⟨hwrites, hwritten, hdurable⟩ := hs.wal w hw
  have hbytes : file ++ w.buffer.take n ++ w.buffer.drop n = c.frames log.active := by
    rw [List.append_assoc, List.take_append_drop, hwrites.bytes]
  have hholds : (m.dir.write w.activeIndex (w.buffer.take n)).Holds c log
      (file ++ w.buffer.take n) := by
    rw [hwrites.index]
    exact hs.holds.write _
  exact
    { hs with
      holds := hholds
      front := ⟨_, hbytes⟩
      platter := hs.platter.trans (List.prefix_append _ _).length_le
      wal := fun w' hw' ↦ Option.some.inj hw' ▸
        ⟨⟨hwrites.index, hbytes, hwrites.size, hwrites.last⟩, hwritten, hdurable⟩ }

theorem sync (hs : m.Stands c log file) {w : Wal} (hw : m.wal = some w) :
    Stands c { m with
      dir := (w.sync m.dir).2
      wal := some (w.sync m.dir).1
      platter := settle m.platter (w.sync m.dir).2 w.activeIndex } log (c.frames log.active) ∧
    settle m.platter (w.sync m.dir).2 w.activeIndex log.index = (c.frames log.active).length := by
  obtain ⟨hwrites, hwritten, -⟩ := hs.wal w hw
  have hholds : (w.sync m.dir).2.Holds c log (c.frames log.active) := hwrites.flush hs.holds
  have hlast : settle m.platter (w.sync m.dir).2 w.activeIndex log.index =
      (c.frames log.active).length := by
    rw [hwrites.index, settle, Function.update_self, hholds.lengthOf]
  have hother : ∀ i ≠ log.index,
      settle m.platter (w.sync m.dir).2 w.activeIndex i = m.platter i := by
    intro i hi
    rw [hwrites.index, settle, Function.update_of_ne hi]
  refine ⟨?_, hlast⟩
  exact
    { holds := hholds
      numbered := hs.numbered
      few := hs.few
      front := List.prefix_rfl
      gapless := hs.gapless
      sealed := fun e he ↦ (hs.sealed e he).trans (hother _ (hs.holds.lt_index e he).ne).ge
      platter := hlast.le
      unstarted := fun i hi ↦ (hother i hi.ne').trans (hs.unstarted i hi)
      wal := fun w' hw' ↦ Option.some.inj hw' ▸
        ⟨⟨hwrites.index, List.append_nil _, hwrites.size, hwrites.last⟩, hwritten,
          markLE_refl _⟩ }

theorem settle_sealed (hs : m.Stands c log file) {dir : Dir} {records : List LogRecord}
    (hholds : dir.Holds c
      ⟨log.sealed ++ [(log.index, log.active)], log.index + 1, records⟩ file') :
    (∀ e ∈ (Segments.mk (log.sealed ++ [(log.index, log.active)]) (log.index + 1) records).files c,
      e.2.length ≤ settle m.platter dir log.index e.1) ∧
    ∀ i, log.index < i → settle m.platter dir log.index i = 0 := by
  refine ⟨fun e he ↦ ?_, fun i hi ↦ ?_⟩
  · have hlength := hholds.lengthOf_sealed he
    rw [Segments.files, List.map_append] at he
    rcases List.mem_append.mp he with he | he
    · rw [settle, Function.update_of_ne (hs.holds.lt_index e he).ne]
      exact hs.sealed e he
    · obtain rfl := List.mem_singleton.mp he
      rw [settle, Function.update_self]
      exact hlength.ge
  · rw [settle, Function.update_of_ne hi.ne']
    exact hs.unstarted i hi

theorem next_segment (hs : m.Stands c log file) {dir : Dir} {records : List LogRecord}
    (hholds : dir.Holds c
      ⟨log.sealed ++ [(log.index, log.active)], log.index + 1, records⟩ file')
    (hfew : dir.segs.entries.length ≤ SEGMENTS) :
    (log.sealed ++ [(log.index, log.active)]).length = log.index + 1 ∧
      log.index + 1 < SEGMENTS := by
  have hnumbered : (log.sealed ++ [(log.index, log.active)]).length = log.index + 1 := by
    rw [List.length_append, hs.numbered]
    rfl
  rw [hholds.entries, List.length_append, Segments.files, List.length_map, hnumbered] at hfew
  exact ⟨hnumbered, hfew⟩

theorem rotate (hs : m.Stands c log file) {w : Wal} (hw : m.wal = some w)
    (hfew : (w.rotate m.dir).2.segs.entries.length ≤ SEGMENTS) :
    Stands c { m with
      dir := (w.rotate m.dir).2
      wal := some (w.rotate m.dir).1
      platter := settle m.platter (w.rotate m.dir).2 w.activeIndex }
      ⟨log.sealed ++ [(log.index, log.active)], log.index + 1, []⟩ [] := by
  obtain ⟨hwrites, hwritten, hdurable⟩ := hs.wal w hw
  have hholds : (w.rotate m.dir).2.Holds c
      ⟨log.sealed ++ [(log.index, log.active)], log.index + 1, []⟩ [] := by
    show ((w.flush m.dir).2.write (w.activeIndex + 1) []).Holds c _ []
    rw [hwrites.index]
    exact (hwrites.flush hs.holds).start
  have hrecords : Segments.records ⟨log.sealed ++ [(log.index, log.active)], log.index + 1, []⟩ =
      log.records :=
    (log.records_seal _ []).trans (List.append_nil _)
  obtain ⟨hnumbered, hcount⟩ := hs.next_segment hholds hfew
  obtain ⟨hsealed, hunstarted⟩ := hs.settle_sealed hholds
  rw [← hwrites.index] at hsealed hunstarted
  exact
    { holds := hholds
      numbered := hnumbered
      few := hcount
      front := List.nil_prefix
      gapless := hrecords ▸ hs.gapless
      sealed := hwrites.index ▸ hsealed
      platter := by
        have hnext := hunstarted (log.index + 1) (hwrites.index ▸ Nat.lt_succ_self _)
        exact hnext.le
      unstarted := fun i hi ↦ hunstarted i (hwrites.index ▸ Nat.lt_of_succ_lt hi)
      wal := fun w' hw' ↦ Option.some.inj hw' ▸
        ⟨⟨congrArg (· + 1) hwrites.index, rfl, rfl, hrecords ▸ hwrites.last⟩,
          hwritten.trans hrecords.symm, hdurable⟩ }

theorem append (hc : c.Lawful) (hs : m.Stands c log file) {w w' : Wal} {dir : Dir}
    {record : LogRecord} (hw : m.wal = some w) (happend : w.append c m.dir record = .ok (w', dir))
    (hfew : dir.segs.entries.length ≤ SEGMENTS) :
    ∃ log' file', Stands c ⟨dir, some w',
        if w'.activeIndex = w.activeIndex then m.platter else settle m.platter dir w.activeIndex,
        m.written ++ [record]⟩ log' file' ∧
      dir.manifest = m.dir.manifest ∧ Wal.Placed log record file log' file' ∧
      (w'.activeIndex = w.activeIndex ↔ log'.index = log.index) := by
  obtain ⟨hwrites, hwritten, hdurable⟩ := hs.wal w hw
  obtain ⟨hnext, happended, hsame⟩ := Wal.append_ok happend
  obtain ⟨w'', dir'', log', file', hput, hmanifest, hholds, hwrites', hplaced⟩ :=
    hwrites.put hc hs.holds record
  rw [Wal.append_eq_put hnext, hput] at happend
  obtain ⟨rfl, rfl⟩ := Prod.mk.inj (Except.ok.inj happend)
  have hrecords := hplaced.records
  have hgap : Gapless log'.records := by
    rw [hrecords]
    refine List.isChain_append.mpr ⟨hs.gapless, List.isChain_singleton _, ?_⟩
    rintro last hlast _ ⟨rfl⟩
    refine hnext last.seq ?_
    rw [hwrites.last, hlast]
    rfl
  have hbelow : w''.durable ≤ w''.appended := by
    rw [hsame, happended]
    cases hprev : w.appended with
    | none =>
      rw [hprev] at hdurable
      exact markLE_trans hdurable Option.none_le
    | some prev =>
      rw [hprev] at hdurable
      have hseq : prev ≤ record.seq := by
        have := Seq.next_eq_some.mp (hnext prev hprev)
        show prev.val ≤ record.seq.val
        omega
      exact markLE_trans hdurable (Option.some_le_some.mpr hseq)
  have hwal : ∀ v, some w'' = some v → v.Writes c log' file' ∧
      m.written ++ [record] = log'.records ∧ v.durable ≤ v.appended := by
    rintro v ⟨rfl⟩
    exact ⟨hwrites', by rw [hrecords, hwritten], hbelow⟩
  have hindex : w''.activeIndex = w.activeIndex ↔ log'.index = log.index := by
    rw [hwrites'.index, hwrites.index]
  refine ⟨log', file', ?_, hmanifest, hplaced, hindex⟩
  cases hplaced with
  | here hfile =>
    rw [if_pos (hindex.mpr rfl)]
    exact ⟨hholds, hs.numbered, hs.few, ⟨w''.buffer, hwrites'.bytes⟩, hgap, hs.sealed,
      hs.platter.trans hfile.length_le, hs.unstarted, hwal⟩
  | rolled =>
    obtain ⟨hnumbered, hcount⟩ := hs.next_segment hholds hfew
    obtain ⟨hsealed, hunstarted⟩ := hs.settle_sealed hholds
    have hnew := hunstarted (log.index + 1) (Nat.lt_succ_self _)
    rw [if_neg fun hsame ↦ Nat.succ_ne_self _ (hindex.mp hsame), hwrites.index]
    exact ⟨hholds, hnumbered, hcount, ⟨w''.buffer, hwrites'.bytes⟩, hgap, hsealed,
      hnew.le.trans (Nat.zero_le _), fun i hi ↦ hunstarted i (Nat.lt_of_succ_lt hi), hwal⟩

theorem «open» (hc : c.Lawful) (hs : m.Stands c log file)
    (hmanifest : m.dir.manifest = none ∨ m.dir.manifest = some (.ok config)) (segmentBytes : U64) :
    ∃ w dir k tail, Wal.open c config segmentBytes m.dir = (.ok w, dir) ∧
      dir.manifest = some (.ok config) ∧
      file = c.frames (log.active.take k) ++ tail ∧
      (torn c m.dir log.index ↔ tail ≠ []) ∧
      Stands c ⟨dir, some w,
        if torn c m.dir w.activeIndex then settle m.platter dir w.activeIndex else m.platter,
        (c.readAll m.dir).toOption.getD []⟩ { log with active := log.active.take k }
        (c.frames (log.active.take k)) ∧
      w.activeIndex = log.index ∧ dir.lengthOf log.index = (c.frames (log.active.take k)).length ∧
      w.durable = w.appended ∧
      ∀ records, records <+: log.active → (c.frames records).length ≤ file.length →
        records <+: log.active.take k := by
  obtain ⟨k, tail, hfile, hend, hgap, hread, hmax⟩ := hs.whole hc
  have hascribed : m.dir.Holds c { log with active := log.active.take k }
      (c.frames (log.active.take k) ++ tail) := hfile ▸ hs.holds.ascribe _
  obtain ⟨w, dir, hopen, hmanifest', hholds, hwrites⟩ :=
    Wal.open_holds hc hmanifest hascribed hs.few hend hgap segmentBytes
  have hindex : w.activeIndex = log.index := hwrites.index
  have htorn : torn c m.dir log.index ↔ tail ≠ [] := by
    rw [torn, hs.holds.get?]
    dsimp only
    rw [hfile, hc.readSegment log.index (log.active.take k) hend]
    exact decide_eq_true_iff.trans List.length_pos_iff
  have hsettle : settle m.platter dir log.index log.index =
      (c.frames (log.active.take k)).length := by
    rw [settle, Function.update_self]
    exact hholds.lengthOf
  have hother : ∀ i ≠ log.index,
      (if torn c m.dir w.activeIndex then settle m.platter dir w.activeIndex else m.platter) i =
        m.platter i := by
    intro i hi
    rw [hindex]
    split_ifs
    · rw [settle, Function.update_of_ne hi]
    · rfl
  refine ⟨w, dir, k, tail, hopen, hmanifest', hfile, htorn, ?_, hindex, hholds.lengthOf,
    (Wal.open_durable hopen).1.symm, hmax⟩
  exact
    { holds := hholds
      numbered := hs.numbered
      few := hs.few
      front := List.prefix_rfl
      gapless := hgap
      sealed := fun e he ↦ (hs.sealed e he).trans (hother _ (hs.holds.lt_index e he).ne).ge
      platter := by
        rw [hindex]
        split_ifs with hcut
        · exact hsettle.le
        · have hwhole : tail = [] := not_not.mp fun hne ↦ hcut (htorn.mpr hne)
          have hle := hs.platter
          rw [hfile, hwhole, List.append_nil] at hle
          exact hle
      unstarted := fun i hi ↦ (hother i hi.ne').trans (hs.unstarted i hi)
      wal := fun w' hw' ↦ by
        obtain rfl := Option.some.inj hw'
        refine ⟨hwrites, ?_, (Wal.open_durable hopen).1 ▸ markLE_refl _⟩
        rw [hread]
        rfl }

end Stands

/-! ## No step loses what has survived

Writing only adds to the file, and what is on the platter stays there, so a record that survives
once does so from then on. -/

namespace Stands

theorem survives_kept (hc : c.Lawful) (hs : m.Stands c log file) (hs' : m'.Stands c log' file')
    (hsealed : log'.sealed = log.sealed)
    (hkept : ∀ records, records <+: log.active →
      (c.frames records).length ≤ m.platter log.index →
        records <+: log'.active ∧ (c.frames records).length ≤ m'.platter log'.index)
    (h : m.Survives c r) : m'.Survives c r := by
  refine (hs'.survives_iff hc).mpr (((hs.survives_iff hc).mp h).imp (hsealed ▸ id) ?_)
  rintro ⟨records, hpre, hlen, hr⟩
  obtain ⟨hpre', hlen'⟩ := hkept records hpre hlen
  exact ⟨records, hpre', hlen', hr⟩

theorem survives_rolled (hc : c.Lawful) (hs : m.Stands c log file) (hs' : m'.Stands c log' file')
    (hsealed : log'.sealed = log.sealed ++ [(log.index, log.active)]) (h : m.Survives c r) :
    m'.Survives c r := by
  refine (hs'.survives_iff hc).mpr (Or.inl ?_)
  rw [hsealed, List.flatMap_append, List.flatMap_singleton]
  refine List.mem_append.mpr (((hs.survives_iff hc).mp h).imp_right ?_)
  rintro ⟨records, hpre, -, hr⟩
  exact hpre.subset hr

theorem survives_placed (hc : c.Lawful) (hs : m.Stands c log file) (hs' : m'.Stands c log' file')
    {record : LogRecord} (hplaced : Wal.Placed log record file log' file')
    (hsame : log'.index = log.index → m'.platter log.index = m.platter log.index)
    (h : m.Survives c r) : m'.Survives c r := by
  cases hplaced with
  | here hfile =>
    exact hs.survives_kept hc hs' rfl (fun _ hpre hlen ↦
      ⟨hpre.trans (List.prefix_append _ _), hlen.trans (hsame rfl).ge⟩) h
  | rolled => exact hs.survives_rolled hc hs' rfl h

end Stands

theorem frames_length_le {l l' : List LogRecord} (h : l <+: l') :
    (c.frames l).length ≤ (c.frames l').length := by
  obtain ⟨rest, rfl⟩ := h
  rw [Codec.frames_append, List.length_append]
  exact Nat.le_add_right _ _

namespace Fresh

theorem readAll {dir : Dir} (h : dir.segs.entries = []) : c.readAll dir = .ok [] := by
  rw [Codec.readAll, Dir.segments, h]
  rfl

theorem lose (h : m.Fresh) (len : ℕ) : (m.lose len).segs.entries = [] := by
  rw [Medium.lose]
  dsimp only
  rw [OrdMap.entries_mapEntries, h.dir, List.map_nil]

theorem lengthOf {dir : Dir} (h : dir.segs.entries = []) (i : ℕ) : dir.lengthOf i = 0 := by
  rw [Dir.lengthOf, OrdMap.get?, h]
  rfl

theorem not_survives (h : m.Fresh) : ¬m.Survives c r := by
  intro hsurvives
  obtain ⟨records, hread, hr⟩ := hsurvives _ le_rfl
  cases (readAll (h.lose _)).symm.trans hread
  exact List.not_mem_nil hr

end Fresh

/-- Every record that the open log holds durable survives. -/
def Covered (c : Codec) (m : Medium) : Prop :=
  ∀ w, m.wal = some w → ∀ r ∈ m.written, some r.seq ≤ w.durable → m.Survives c r

/-- The last segment is all on the platter, or ends in a torn tail. -/
def Settled (c : Codec) (m : Medium) : Prop :=
  m.dir.lengthOf m.dir.lastIndex ≤ m.platter m.dir.lastIndex ∨ torn c m.dir m.dir.lastIndex

theorem not_mem_of_last {l l' : List LogRecord} {n : ℕ} (hnum : NumberedFrom n (l ++ l'))
    (hne : l' ≠ []) (hr : r ∈ (l ++ l').getLast?) : r ∉ l := by
  intro hmem
  have hlast := hnum.getLast? hr
  have hbound := ((NumberedFrom.append.mp hnum).1.le_of_mem hmem).2
  have := List.length_pos_iff.mpr hne
  rw [List.length_append] at hlast
  omega

/-- **Opening** takes what it reads for durable. That is right if and only if the last segment was
settled. -/
theorem Valid.open (hc : c.Lawful) (hv : m.Valid c config) {segmentBytes : U64}
    {out : Except WalError Unit} (hstep : m.step c config (.open segmentBytes) = some (m', out)) :
    m'.Valid c config ∧ (∀ r, m.Survives c r → m'.Survives c r) ∧ (m'.Covered c ↔ m.Settled c) := by
  have hwal : m.wal = none := by
    rcases hw : m.wal with _ | w
    · rfl
    · rw [Medium.step, hw] at hstep
      cases hstep
  rw [Medium.step, hwal] at hstep
  dsimp only at hstep
  rcases hv.files with hfresh | ⟨log, file, hs⟩
  · obtain ⟨w, dir, hopen, hmanifest, hholds, hwrites⟩ :=
      Wal.open_empty (c := c) hv.manifest hfresh.dir segmentBytes
    have hnone : m.dir.segs.get? 0 = none := by
      rw [OrdMap.get?, hfresh.dir]
      rfl
    have hwhole : torn c m.dir w.activeIndex = false := by
      rw [show w.activeIndex = 0 from hwrites.index, torn, hnone]
    rw [hopen] at hstep
    dsimp only at hstep
    rw [hwhole, Fresh.readAll hfresh.dir] at hstep
    cases hstep
    have hs : Stands c ⟨dir, some w, m.platter, []⟩ ⟨[], 0, []⟩ [] :=
      { holds := hholds
        numbered := rfl
        few := by decide
        front := List.nil_prefix
        gapless := List.IsChain.nil
        sealed := fun e he ↦ absurd he List.not_mem_nil
        platter := (hfresh.platter 0).le
        unstarted := fun i _ ↦ hfresh.platter i
        wal := fun w' hw' ↦ Option.some.inj hw' ▸
          ⟨hwrites, rfl, (Wal.open_durable hopen).1 ▸ markLE_refl _⟩ }
    refine ⟨⟨Or.inr hmanifest, Or.inr ⟨_, _, hs⟩⟩, fun r hr ↦ absurd hr hfresh.not_survives,
      fun _ ↦ Or.inl ?_, fun _ w' hw' r hr ↦ absurd hr List.not_mem_nil⟩
    rw [Fresh.lengthOf hfresh.dir]
    exact Nat.zero_le _
  · obtain ⟨w, dir, k, tail, hopen, hmanifest, hfile, htorn, hs', hindex, hlength, hdurable,
      hmax⟩ :=
      hs.open hc hv.manifest segmentBytes
    rw [hopen] at hstep
    cases hstep
    obtain ⟨hwrites, hwritten, -⟩ := hs'.wal w rfl
    have hplatter : ∀ records, records <+: log.active.take k →
        ((c.frames records).length ≤ (if torn c m.dir w.activeIndex
          then settle m.platter dir w.activeIndex else m.platter) log.index ↔
            tail ≠ [] ∨ (c.frames records).length ≤ m.platter log.index) := by
      intro records hpre
      rw [hindex]
      split_ifs with hcut
      · rw [settle, Function.update_self, hlength]
        exact iff_of_true (frames_length_le hpre) (Or.inl (htorn.mp hcut))
      · exact ⟨Or.inr, fun h ↦ h.resolve_left fun hne ↦ hcut (htorn.mpr hne)⟩
    have hsettled : m.Settled c ↔ tail ≠ [] ∨ file.length ≤ m.platter log.index := by
      rw [Settled, hs.holds.lastIndex, hs.holds.lengthOf, htorn, or_comm]
    refine ⟨⟨Or.inr hmanifest, Or.inr ⟨_, _, hs'⟩⟩, fun r ↦ ?_, fun hcovered ↦ ?_,
      fun hbefore v hv r hr _ ↦ ?_⟩
    · refine hs.survives_kept hc hs' rfl fun records hpre hlen ↦ ?_
      have hpre' := hmax records hpre (hlen.trans hs.platter)
      exact ⟨hpre', (hplatter records hpre').mpr (Or.inr hlen)⟩
    · -- Were the segment whole and ahead of the platter, its last record would not survive.
      rw [hsettled]
      by_contra hnot
      obtain ⟨hwhole, hahead⟩ := not_or.mp hnot
      rw [not_not.mp hwhole, List.append_nil] at hfile
      have hne : log.active.take k ≠ [] := by
        intro hempty
        rw [hfile, hempty] at hahead
        exact hahead (Nat.zero_le _)
      obtain ⟨last, hlast⟩ : ∃ last, last ∈ (log.active.take k).getLast? :=
        ⟨_, List.getLast?_eq_some_getLast hne⟩
      have hend : last ∈ (log.sealed.flatMap Prod.snd ++ log.active.take k).getLast? := by
        rw [List.getLast?_append, hlast]
        rfl
      have hmark : some last.seq ≤ w.durable := by
        rw [hdurable, hwrites.last, Segments.records, hend]
        exact markLE_refl _
      obtain ⟨n, hnum⟩ : ∃ n, NumberedFrom n
          (log.sealed.flatMap Prod.snd ++ log.active.take k) := hs'.gapless.numbered
      have hsurvives := hcovered w rfl last (hwritten ▸ List.mem_of_mem_getLast? hend) hmark
      rcases (hs'.survives_iff hc).mp hsurvives with hr | ⟨records, ⟨rest, hrest⟩, hlen, hr⟩
      · exact not_mem_of_last hnum hne hend hr
      · have hsplit : records ++ rest = log.active.take k := hrest
        have hne' : rest ≠ [] := by
          rintro rfl
          rw [List.append_nil] at hsplit
          rw [hsplit, hplatter _ List.prefix_rfl, ← hfile] at hlen
          exact hlen.elim hwhole hahead
        rw [← hsplit, ← List.append_assoc] at hnum hend
        exact not_mem_of_last hnum hne' hend (List.mem_append_right _ hr)
    · obtain rfl := Option.some.inj hv
      have hr : r ∈ Segments.records { log with active := log.active.take k } := hwritten ▸ hr
      refine hs'.survives_all hc ((hplatter _ List.prefix_rfl).mpr ?_) hr
      refine (hsettled.mp hbefore).imp_right fun hlen ↦ le_trans ?_ hlen
      rw [hfile, List.length_append]
      exact Nat.le_add_right _ _

/-- **What one operation keeps.** Only opening can call durable what does not survive. -/
theorem Valid.step (hc : c.Lawful) (hv : m.Valid c config) {op : Operation}
    {out : Except WalError Unit} (hstep : m.step c config op = some (m', out))
    (hfew : m'.dir.segs.entries.length ≤ SEGMENTS) :
    m'.Valid c config ∧ (∀ r, m.Survives c r → m'.Survives c r) ∧
      ((∀ n, op = .open n → m.Settled c) → m.Covered c → m'.Covered c) := by
  have hlog : ∀ w, m.wal = some w → ∃ log file, m.Stands c log file := by
    intro w hw
    refine hv.files.resolve_left fun hfresh ↦ ?_
    rw [hfresh.wal] at hw
    cases hw
  cases op with
  | «open» segmentBytes =>
    obtain ⟨hv', hsurvives, hcovered⟩ := hv.open hc hstep
    exact ⟨hv', hsurvives, fun hsettled _ ↦ hcovered.mpr (hsettled segmentBytes rfl)⟩
  | append record =>
    obtain ⟨w, hw, heq⟩ := Option.map_eq_some_iff.mp hstep
    obtain ⟨log, file, hs⟩ := hlog w hw
    cases happend : w.append c m.dir record with
    | error e =>
      rw [happend] at heq
      cases heq
      exact ⟨hv, fun _ ↦ id, fun _ ↦ id⟩
    | ok next =>
      obtain ⟨w', dir⟩ := next
      rw [happend] at heq
      cases heq
      obtain ⟨log', file', hs', hmanifest, hplaced, hindex⟩ := hs.append hc hw happend hfew
      have hsurvives : ∀ r, m.Survives c r → Survives c _ r := fun r ↦
        hs.survives_placed hc hs' hplaced fun hsame ↦ by rw [if_pos (hindex.mpr hsame)]
      refine ⟨⟨hmanifest ▸ hv.manifest, Or.inr ⟨log', file', hs'⟩⟩, hsurvives,
        fun _ hcovered v hv r hr hmark ↦ ?_⟩
      obtain rfl := Option.some.inj hv
      obtain ⟨hnext, -, hsame⟩ := Wal.append_ok happend
      rw [hsame] at hmark
      rcases List.mem_append.mp hr with hr | hr
      · exact hsurvives r (hcovered w hw r hr hmark)
      · -- The record that was just appended is above the mark.
        obtain rfl := List.mem_singleton.mp hr
        have hbelow := markLE_trans hmark (hs.wal w hw).2.2
        cases hprev : w.appended with
        | none =>
          rw [hprev] at hbelow
          exact absurd hbelow Option.not_some_le_none
        | some prev =>
          rw [hprev] at hbelow
          have hle : r.seq.val ≤ prev.val := Option.some_le_some.mp hbelow
          have := Seq.next_eq_some.mp (hnext prev hprev)
          omega
  | sync =>
    obtain ⟨w, hw, heq⟩ := Option.map_eq_some_iff.mp hstep
    cases heq
    obtain ⟨log, file, hs⟩ := hlog w hw
    obtain ⟨hs', hlast⟩ := hs.sync hw
    refine ⟨⟨hv.manifest, Or.inr ⟨log, _, hs'⟩⟩, fun r ↦ ?_, fun _ _ v hv r hr _ ↦ ?_⟩
    · exact hs.survives_kept hc hs' rfl fun records hpre hlen ↦
        ⟨hpre, (frames_length_le hpre).trans hlast.ge⟩
    · exact hs'.survives_all hc hlast.ge ((hs.wal w hw).2.1 ▸ hr)
  | rotate =>
    obtain ⟨w, hw, heq⟩ := Option.map_eq_some_iff.mp hstep
    cases heq
    obtain ⟨log, file, hs⟩ := hlog w hw
    have hs' := hs.rotate hw hfew
    have hsurvives : ∀ r, m.Survives c r → Survives c _ r :=
      fun r ↦ hs.survives_rolled hc hs' rfl
    refine ⟨⟨hv.manifest, Or.inr ⟨_, _, hs'⟩⟩, hsurvives, fun _ hcovered v hv r hr hmark ↦ ?_⟩
    obtain rfl := Option.some.inj hv
    exact hsurvives r (hcovered w hw r hr hmark)
  | spill n =>
    obtain ⟨w, hw, heq⟩ := Option.map_eq_some_iff.mp hstep
    cases heq
    obtain ⟨log, file, hs⟩ := hlog w hw
    have hs' := hs.spill hw n
    have hsurvives : ∀ r, m.Survives c r → Survives c _ r :=
      fun r ↦ hs.survives_kept hc hs' rfl fun _ hpre hlen ↦ ⟨hpre, hlen⟩
    refine ⟨⟨hv.manifest, Or.inr ⟨_, _, hs'⟩⟩, hsurvives, fun _ hcovered v hv r hr hmark ↦ ?_⟩
    obtain rfl := Option.some.inj hv
    exact hsurvives r (hcovered w hw r hr hmark)
  | kill =>
    cases hstep
    refine ⟨⟨hv.manifest, hv.files.imp (fun hfresh ↦ ⟨hfresh.dir, rfl, hfresh.platter⟩) ?_⟩,
      fun _ ↦ id, fun _ _ v hv ↦ absurd hv.symm (Option.some_ne_none _)⟩
    rintro ⟨log, file, hs⟩
    exact ⟨log, file, hs.kill⟩
  | powerLoss len =>
    rw [Medium.step] at hstep
    split_ifs at hstep with hlen
    cases hstep
    rcases hv.files with hfresh | ⟨log, file, hs⟩
    · exact ⟨⟨hv.manifest, Or.inl ⟨hfresh.lose len, rfl, Fresh.lengthOf (hfresh.lose len)⟩⟩,
        fun r hr ↦ absurd hr hfresh.not_survives,
        fun _ _ v hv ↦ absurd hv.symm (Option.some_ne_none _)⟩
    · have hs' := hs.powerLoss len
      rw [hs.holds.lastIndex] at hlen
      refine ⟨⟨hv.manifest, Or.inr ⟨log, _, hs'⟩⟩, fun r ↦ ?_,
        fun _ _ v hv ↦ absurd hv.symm (Option.some_ne_none _)⟩
      refine hs.survives_kept hc hs' rfl fun records hpre hframes ↦ ⟨hpre, ?_⟩
      show (c.frames records).length ≤ (m.lose len).lengthOf log.index
      rw [(hs.lose len).lengthOf, List.length_take]
      exact le_min (hframes.trans hlen) (hframes.trans hs.platter)

end Medium

end DutchAuction
