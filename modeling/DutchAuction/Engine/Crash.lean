import DutchAuction.Engine.Pipeline
import DutchAuction.Wal.Bincode
import DutchAuction.Wal.Calls
import DutchAuction.Wal.Disk
import DutchAuction.Wal.Saving

/-!
# Opening a directory after a crash

One directory and the processes that run on it, one after another. Each opens the auction, and then
its engine applies commands, its commit thread appends them to the log, and its snapshot thread
writes states and deletes old ones, every thread making its calls on the files one at a time. The
process can be killed before any call or inside one.

Whatever is killed, the segments stay legible and the snapshots usable, and what recovery and the
log need is there (`Resumable`). The manifest is the exception: it is created and then written, so a
kill between the two, or inside the write, leaves a file that is no manifest. Such a directory is
never opened again, and no other crash does that (`openable_iff`).

The manifest is text. What reads and writes it is not part of the program; all that is used of it is
that a configuration reads back, and that text which breaks off does not read
(`ManifestText.Lawful`). -/

namespace DutchAuction

/-! ## The manifest -/

/-- The format of the manifest. -/
structure ManifestText where
  toVecPretty : AuctionConfig → List UInt8
  fromSlice : List UInt8 → Except String AuctionConfig

/-- What is used of it for this configuration. -/
structure ManifestText.Lawful (text : ManifestText) (config : AuctionConfig) : Prop where
  whole : text.fromSlice (text.toVecPretty config) = .ok config
  /-- Text that breaks off is refused. -/
  torn : ∀ n < (text.toVecPretty config).length,
    ∃ detail, text.fromSlice ((text.toVecPretty config).take n) = .error detail

/-! ## A directory and the process on it

Each thread makes its calls on the files one at a time. While the auction is being opened there is
only the one that opens it. -/

/-- A running auction. -/
structure Live where
  state : AuctionState
  nextSeq : Seq
  /-- Submitted to the commit thread, and not appended yet. -/
  queue : List LogRecord
  wal : Wal
  /-- The calls the commit thread has still to make. -/
  writing : List SegCall
  /-- The one slot of the snapshot queue. -/
  handed : Option AuctionState
  /-- The calls the snapshot thread has still to make. -/
  saving : List SnapCall

def Live.start (o : Opened) : Live where
  state := o.state
  nextSeq := o.nextSeq
  queue := []
  wal := o.wal
  writing := []
  handed := none
  saving := []

/-- Where the process is. -/
inductive Machine.Phase
  | down
  /-- Opening: the manifest is about to be created, -/
  | founding (o : Opened) (calls : List SegCall)
  /-- is there and empty, -/
  | describing (o : Opened) (calls : List SegCall)
  /-- and is written. -/
  | opening (o : Opened) (calls : List SegCall)
  | up (live : Live)

structure Machine where
  dir : Dir
  phase : Machine.Phase

namespace Machine

/-- What can happen. -/
inductive Move
  | «open» (segmentBytes : U64)
  /-- Opening goes on by one call. -/
  | call
  /-- The engine applies a command and submits its record. -/
  | command (ts : Nanos) (cmd : Command)
  /-- The commit thread begins to append the next record, -/
  | append
  /-- to sync, -/
  | sync
  /-- or to rotate, -/
  | rotate
  /-- and makes its next call. -/
  | write
  /-- The engine hands its state to the snapshot thread, -/
  | hand
  /-- which begins to save it -/
  | take
  /-- and makes its next call. -/
  | save
  /-- The process is killed, between calls or with `n` bytes of the current one written. -/
  | kill (inside : Option ℕ)
deriving DecidableEq

/-- An absent directory. -/
def new : Machine := ⟨Dir.empty, .down⟩

/-- What the call that a kill hits has done. -/
def cutFirst (inside : Option ℕ) : List SegCall → Segs → Segs
  | [], segs => segs
  | call :: _, segs =>
    match inside with
    | none => segs
    | some n => call.cut n segs

/-- What a kill leaves. -/
def killed (text : ManifestText) (config : AuctionConfig) (m : Machine) (inside : Option ℕ) : Dir :=
  match m.phase with
  | .down | .founding _ _ => m.dir
  | .describing _ _ =>
    { m.dir with
      manifest := some (text.fromSlice ((text.toVecPretty config).take (inside.getD 0))) }
  | .opening _ calls => { m.dir with segs := cutFirst inside calls m.dir.segs }
  | .up live => { m.dir with segs := cutFirst inside live.writing m.dir.segs }

/-- Nothing comes out of a step, unless opening is refused. -/
abbrev Outcome : Type := Except WalError Unit

/-- One step of an auction that is open. -/
def stepLive (c : Codec) (dir : Dir) (live : Live) : Move → Option (Dir × Live × Outcome)
  | .command ts cmd =>
    live.nextSeq.next.bind fun next ↦
      (live.state.apply live.nextSeq ts cmd).map fun r ↦
        (dir, { live with
          state := r.1
          nextSeq := next
          queue := live.queue ++ [⟨live.nextSeq, ts, cmd⟩] }, .ok ())
  | .append =>
    match live.writing, live.queue with
    | [], record :: queue =>
      match live.wal.append c dir record with
      | .ok (wal, _) =>
        some (dir, { live with
          queue := queue
          wal := wal
          writing := live.wal.appendCalls c record }, .ok ())
      | .error e => some (dir, live, .error e)
    | _, _ => none
  | .sync =>
    match live.writing with
    | [] => some (dir, { live with
        wal := (live.wal.sync dir).1
        writing := live.wal.syncCalls }, .ok ())
    | _ => none
  | .rotate =>
    match live.writing with
    | [] => some (dir, { live with
        wal := (live.wal.rotate dir).1
        writing := live.wal.rotateCalls }, .ok ())
    | _ => none
  | .write =>
    match live.writing with
    | [] => none
    | call :: calls =>
      some ({ dir with segs := call.apply dir.segs }, { live with writing := calls }, .ok ())
  | .hand =>
    match live.handed with
    | some _ => none
    | none => some (dir, { live with handed := some live.state }, .ok ())
  | .take =>
    match live.saving, live.handed with
    | [], some state =>
      some (dir, { live with handed := none, saving := dir.snaps.saveCalls state }, .ok ())
    | _, _ => none
  | .save =>
    match live.saving with
    | [] => none
    | call :: calls =>
      some ({ dir with snaps := call.apply dir.snaps }, { live with saving := calls }, .ok ())
  | _ => none

/-- One step. It is undefined where it cannot be made, and where the program stops. -/
def step (c : Codec) (text : ManifestText) (config : AuctionConfig) (m : Machine) :
    Move → Option (Machine × Outcome)
  | .open segmentBytes =>
    match m.phase with
    | .down =>
      match openInner c config segmentBytes m.dir with
      | some (.ok o) =>
        let calls := Wal.openCalls c m.dir
        match m.dir.manifest with
        | none => some (⟨m.dir, .founding o calls⟩, .ok ())
        | some _ => some (⟨m.dir, .opening o calls⟩, .ok ())
      | some (.error e) =>
        -- Recovery reads before the log is opened, and all that it may let pass is an absent
        -- manifest.
        match m.dir.manifest with
        | none => some (⟨(Wal.open c config segmentBytes m.dir).2, .down⟩, .error e)
        | some _ => some (m, .error e)
      | none => none
    | _ => none
  | .call =>
    match m.phase with
    | .founding o calls =>
      some (⟨{ m.dir with manifest := some (text.fromSlice []) }, .describing o calls⟩, .ok ())
    | .describing o calls =>
      some (⟨{ m.dir with manifest := some (text.fromSlice (text.toVecPretty config)) },
        .opening o calls⟩, .ok ())
    | .opening o (call :: calls) =>
      some (⟨{ m.dir with segs := call.apply m.dir.segs }, .opening o calls⟩, .ok ())
    | .opening o [] => some (⟨m.dir, .up (.start o)⟩, .ok ())
    | _ => none
  | .kill inside => some (⟨m.killed text config inside, .down⟩, .ok ())
  | move =>
    match m.phase with
    | .up live => (stepLive c m.dir live move).map fun r ↦ (⟨r.1, .up r.2.1⟩, r.2.2)
    | _ => none

/-- The runs of one directory, from when it is absent. -/
abbrev Run (c : Codec) (text : ManifestText) (config : AuctionConfig) :
    List (Runs.Transition Machine Move Outcome) → Machine → Prop :=
  Runs.Run (step c text config) new

/-- The segment that the log writes has a name. -/
def Named (m : Machine) : Prop :=
  match m.phase with
  | .up live => live.wal.activeIndex < SEGMENTS
  | _ => True

instance : ∀ m : Machine, Decidable m.Named
  | ⟨_, .up live⟩ => inferInstanceAs (Decidable (live.wal.activeIndex < SEGMENTS))
  | ⟨_, .down⟩ | ⟨_, .founding _ _⟩ | ⟨_, .describing _ _⟩ | ⟨_, .opening _ _⟩ =>
    inferInstanceAs (Decidable True)

/-- The directory can be opened. -/
def Opens (c : Codec) (config : AuctionConfig) (dir : Dir) : Prop :=
  ∀ segmentBytes, ∃ o, openInner c config segmentBytes dir = some (.ok o)

/-- The kill leaves a manifest that breaks off. -/
def Tears (text : ManifestText) (config : AuctionConfig) (m : Machine) (inside : Option ℕ) : Prop :=
  match m.phase with
  | .describing _ _ => inside.getD 0 < (text.toVecPretty config).length
  | _ => False

end Machine

/-! ## What every process leaves -/

variable {c : Codec} {text : ManifestText} {config : AuctionConfig} {dir : Dir}

theorem NumberedFrom.of_append {n : ℕ} {l l' : List LogRecord} (h : NumberedFrom n (l ++ l')) :
    NumberedFrom n l := (NumberedFrom.append.mp h).1

/-- There is nothing yet, or everything that recovery and the log need. -/
def Resumable (c : Codec) (config : AuctionConfig) (dir : Dir) : Prop :=
  (dir.manifest = none ∧ dir.segs.entries = [] ∧ dir.snaps.entries = []) ∨
    dir.manifest = some (.ok config) ∧
      ∃ n < 2 ^ 64, Segs.Legible c n dir.segs ∧ dir.snaps.Usable config n

/-- The calls of opening the log can be killed anywhere; made all, they lead to an auction that is
at the end of its log. -/
structure Enters (c : Codec) (config : AuctionConfig) (dir : Dir) (o : Opened)
    (calls : List SegCall) : Prop where
  killed : ∀ t, segCalls.Left calls dir.segs t →
    ∃ n < 2 ^ 64, Segs.Legible c n t ∧ dir.snaps.Usable config n
  ready : ∃ n log file, Segs.Lies c n (segCalls.run calls dir.segs) log file ∧
    o.wal.Writes c log file ∧ dir.snaps.Usable config n ∧
    o.nextSeq.val = n + log.records.length
  at_next : o.state.At o.nextSeq.val
  config : o.state.config = config

theorem Wal.open_calls {segmentBytes : U64} {w : Wal} {dir' : Dir}
    (hmanifest : dir.manifest = none ∨ dir.manifest = some (.ok config))
    (h : Wal.open c config segmentBytes dir = (.ok w, dir')) :
    dir'.segs = segCalls.run (Wal.openCalls c dir) dir.segs := by
  rw [open_eq hmanifest] at h
  exact congrArg Dir.segs (resume_calls h)

/-- **A directory that is there whole can be opened.** -/
theorem Resumable.opens (hc : c.Lawful) (h : Resumable c config dir) (segmentBytes : U64) :
    ∃ o, openInner c config segmentBytes dir = some (.ok o) ∧
      Enters c config dir o (Wal.openCalls c dir) := by
  rcases h with ⟨hmanifest, hsegs, hsnaps⟩ | ⟨hmanifest, n, hn, hlegible, husable⟩
  · obtain ⟨w, dir', hopen, -, hholds, hwrites⟩ :=
      Wal.open_empty (c := c) (Or.inl hmanifest) hsegs segmentBytes
    have hrecover : c.recover dir = some (.error (.noManifest .dir)) := by
      rw [Codec.recover, Dir.readManifest, hmanifest]
    have husable : dir.snaps.Usable config 0 :=
      ⟨fun k file hmem ↦ absurd (hsnaps ▸ hmem) List.not_mem_nil, Or.inl rfl⟩
    refine ⟨⟨AuctionState.new config, Seq.START, w, dir'⟩, ?_, ?_⟩
    · rw [openInner, hrecover, Option.map_some]
      dsimp only
      rw [openInner.resume, hopen]
    · exact
        { killed := fun t ht ↦
            ⟨0, Nat.two_pow_pos 64, Wal.openCalls_empty (Nat.two_pow_pos 64) hsegs ht, husable⟩
          ready := by
            refine ⟨0, ⟨[], 0, []⟩, [], ⟨?_, List.nil_prefix, rfl, by decide, trivial,
              Nat.two_pow_pos 64⟩, hwrites, husable, rfl⟩
            rw [← Wal.open_calls (Or.inl hmanifest) hopen]
            exact hholds.entries
          at_next := AuctionState.new_at config _
          config := rfl }
  · -- What reads, and the segments it reads from.
    obtain ⟨records, hread, hnum, hbound, w, dir', log, file, hopen, hholds, hwrites, hfile, hcount,
        hfew, hrecords, hkilled⟩ : ∃ records, c.readAll dir = .ok records ∧ NumberedFrom n records ∧
        n + records.length < 2 ^ 64 ∧ ∃ w dir' log file,
          Wal.open c config segmentBytes dir = (.ok w, dir') ∧ dir'.Holds c log file ∧
          w.Writes c log file ∧ file <+: c.frames log.active ∧ log.sealed.length = log.index ∧
          log.index < SEGMENTS ∧ log.records = records ∧
          ∀ t, segCalls.Left (Wal.openCalls c dir) dir.segs t → t.Legible c n := by
      rcases hlegible with hsegs | ⟨log, file, hlies⟩
      · obtain ⟨w, dir', hopen, -, hholds, hwrites⟩ :=
          Wal.open_empty (c := c) (Or.inr hmanifest) hsegs segmentBytes
        refine ⟨[], ?_, trivial, hn, w, dir', ⟨[], 0, []⟩, [], hopen, hholds, hwrites,
          List.nil_prefix, rfl, by decide, rfl, fun t ht ↦ Wal.openCalls_empty hn hsegs ht⟩
        rw [Codec.readAll, Dir.segments, hsegs]
        rfl
      · have hheld : dir.Holds c log file := hlies.holds rfl
        obtain ⟨k, tail, hfile, hend, hgap, hread, -⟩ :=
          Codec.readAll_cut hc hheld hlies.front hlies.few hlies.numbered.gapless
        have hascribed : dir.Holds c { log with active := log.active.take k }
            (c.frames (log.active.take k) ++ tail) := hfile ▸ hheld.ascribe _
        obtain ⟨w, dir', hopen, -, hholds, hwrites⟩ :=
          Wal.open_holds hc (Or.inr hmanifest) hascribed
          hlies.few hend hgap segmentBytes
        have hsplit : log.records =
            (log.sealed.flatMap Prod.snd ++ log.active.take k) ++ log.active.drop k := by
          rw [List.append_assoc, List.take_append_drop, Segments.records]
        have hlength := hlies.bound
        rw [hsplit, List.length_append] at hlength
        refine ⟨_, hread, (hsplit ▸ hlies.numbered).of_append, by omega, w, dir', _, _, hopen,
          hholds, hwrites, List.prefix_rfl, hlies.count, hlies.few, rfl, fun t ht ↦ ?_⟩
        obtain ⟨file', hlies'⟩ := hlies.open rfl ht
        exact hlies'.legible
    have hsnapshot : ∀ s ∈ dir.snaps.latestUsable, s.state.At (s.seq.val + 1) ∧
        s.state.config = config ∧ s.seq.val + 1 < 2 ^ 64 ∧ (records ≠ [] → n ≤ s.seq.val + 1) := by
      intro s hs
      obtain ⟨hat, hconfig, hlast, hcovers, -⟩ := husable.latestUsable hs
      exact ⟨hat, hconfig, hlast, fun _ ↦ hcovers⟩
    obtain ⟨r, hrecover, hconfig, hat, hnext, hempty⟩ := recoverFrom_ok hnum hbound hsnapshot
    refine ⟨⟨r.state, r.nextSeq, w, dir'⟩, ?_, ?_⟩
    · rw [openInner, Codec.recover_eq hmanifest hread, hrecover, Option.map_some]
      dsimp only
      rw [if_pos hconfig, openInner.resume, hopen]
    · refine ⟨fun t ht ↦ ⟨n, hn, hkilled t ht, husable⟩, ?_, hat, hconfig⟩
      -- An empty log takes up where recovery does.
      obtain ⟨n', hnum', husable', hnext'⟩ : ∃ n', NumberedFrom n' records ∧
          dir.snaps.Usable config n' ∧ r.nextSeq.val = n' + records.length := by
        by_cases hnil : records = []
        · refine ⟨r.nextSeq.val, hnil ▸ trivial, ⟨husable.files, ?_⟩, by rw [hnil]; rfl⟩
          refine (hempty hnil).imp_right ?_
          rintro ⟨s, hs, hseq⟩
          obtain ⟨-, -, -, -, k, file, hmem, rfl⟩ := husable.latestUsable hs
          exact ⟨s.seq, file, hmem, hseq.le⟩
        · exact ⟨n, hnum, husable, hnext hnil⟩
      refine ⟨n', log, file, ⟨?_, hfile, hcount, hfew, hrecords ▸ hnum', ?_⟩, hwrites, husable',
        hrecords ▸ hnext'⟩
      · rw [← Wal.open_calls (Or.inr hmanifest) hopen]
        exact hholds.entries
      · rw [hrecords, ← hnext']
        exact r.nextSeq.val_lt

/-! ## An auction that is open -/

namespace Live

variable {live live' : Live} {n : ℕ} {dir' : Dir}

/-- What is true of an auction that is open, with a log that starts at `n`. -/
structure Sound (live : Live) (c : Codec) (config : AuctionConfig) (n : ℕ) (dir : Dir) : Prop where
  manifest : dir.manifest = some (.ok config)
  /-- The commit thread can be killed anywhere, -/
  writing : ∀ t, segCalls.Left live.writing dir.segs t → t.Legible c n
  /-- and so can the snapshot thread. -/
  saving : ∀ t, snapCalls.Left live.saving dir.snaps t → t.Usable config n
  handed : ∀ state ∈ live.handed, Snapshots.Savable state config
  /-- Once its calls are made the log has its records, and those that are queued come next. -/
  ready : ∃ log file, Segs.Lies c n (segCalls.run live.writing dir.segs) log file ∧
    live.wal.Writes c log file ∧ NumberedFrom n (log.records ++ live.queue) ∧
    live.nextSeq.val = n + (log.records ++ live.queue).length
  at_next : live.state.At live.nextSeq.val
  config : live.state.config = config

namespace Sound

theorem start {o : Opened} (hmanifest : dir.manifest = some (.ok config))
    (h : Enters c config dir o []) : ∃ n, (Live.start o).Sound c config n dir := by
  obtain ⟨n, log, file, hlies, hwrites, husable, hnext⟩ := h.ready
  refine ⟨n, hmanifest, fun t ht ↦ ?_, fun t ht ↦ ?_, fun _ hs ↦ absurd hs (Option.not_mem_none _),
    ⟨log, file, hlies, hwrites, ?_, ?_⟩, h.at_next, h.config⟩
  · rw [Interrupted.Effect.left_nil.mp ht]
    exact hlies.legible
  · rw [Interrupted.Effect.left_nil.mp ht]
    exact husable
  · exact (List.append_nil log.records).symm ▸ hlies.numbered
  · exact (List.append_nil log.records).symm ▸ hnext

theorem savable (h : live.Sound c config n dir) : Snapshots.Savable live.state config where
  config := h.config
  last k hk := h.at_next k hk ▸ live.nextSeq.val_lt

theorem command (h : live.Sound c config n dir) {ts : Nanos} {cmd : Command} {next : Seq}
    (hnext : live.nextSeq.next = some next) {r : AuctionState × List Event}
    (happly : live.state.apply live.nextSeq ts cmd = some r) :
    Sound { live with
      state := r.1
      nextSeq := next
      queue := live.queue ++ [⟨live.nextSeq, ts, cmd⟩] } c config n dir := by
  have hstep : live.state.step ⟨live.nextSeq, ts, cmd⟩ = some (r.1, r.2) := happly
  have hval := Seq.next_eq_some.mp hnext
  obtain ⟨log, file, hlies, hwrites, hnum, hlength⟩ := h.ready
  refine
    { h with
      ready := ⟨log, file, hlies, hwrites, ?_, ?_⟩
      at_next := fun last hlast ↦ ?_
      config := (step_frame hstep).1.trans h.config }
  · rw [← List.append_assoc]
    exact NumberedFrom.append.mpr ⟨hnum, hlength, trivial⟩
  · rw [← List.append_assoc, List.length_append, ← Nat.add_assoc, ← hlength]
    exact hval
  · rw [step_lastSeq hstep] at hlast
    cases hlast
    exact hval.symm

theorem append (hc : c.Lawful) (h : live.Sound c config n dir) (hidle : live.writing = [])
    {record : LogRecord} {queue : List LogRecord} (hqueue : live.queue = record :: queue) :
    ∃ w dir', live.wal.append c dir record = .ok (w, dir') ∧ (w.activeIndex < SEGMENTS →
      Sound { live with queue := queue, wal := w, writing := live.wal.appendCalls c record }
        c config n dir) := by
  obtain ⟨log, file, hlies, hwrites, hnum, hlength⟩ := h.ready
  rw [hidle, Interrupted.Effect.run_nil] at hlies
  rw [hqueue, List.append_cons] at hnum hlength
  have hbound : n + (log.records ++ [record]).length < 2 ^ 64 := by
    have := live.nextSeq.val_lt
    rw [hlength, List.length_append] at this
    omega
  obtain ⟨w, happend, hfew⟩ := hlies.append hc hwrites hnum.of_append hbound rfl
  refine ⟨w, _, happend, fun hw ↦ ?_⟩
  obtain ⟨hleft, log', file', hlies', hwrites', hrecords⟩ := hfew hw
  exact
    { h with
      writing := hleft
      ready := ⟨log', file', hlies', hwrites', hrecords.symm ▸ hnum, hrecords.symm ▸ hlength⟩ }

theorem sync (h : live.Sound c config n dir) (hidle : live.writing = []) :
    Sound { live with wal := (live.wal.sync dir).1, writing := live.wal.syncCalls }
      c config n dir := by
  obtain ⟨log, file, hlies, hwrites, hrest⟩ := h.ready
  rw [hidle, Interrupted.Effect.run_nil] at hlies
  obtain ⟨hleft, hrun⟩ := hlies.sync hwrites
  exact
    { h with
      writing := hleft
      ready := ⟨log, _, hrun,
        ⟨hwrites.index, List.append_nil _, hwrites.size, hwrites.last⟩, hrest⟩ }

theorem rotate (h : live.Sound c config n dir) (hidle : live.writing = [])
    (hfew : (live.wal.rotate dir).1.activeIndex < SEGMENTS) :
    Sound { live with wal := (live.wal.rotate dir).1, writing := live.wal.rotateCalls }
      c config n dir := by
  obtain ⟨log, file, hlies, hwrites, hrest⟩ := h.ready
  rw [hidle, Interrupted.Effect.run_nil] at hlies
  have hindex : (live.wal.rotate dir).1.activeIndex = log.index + 1 :=
    congrArg (· + 1) hwrites.index
  obtain ⟨hleft, hrun⟩ := hlies.rotate hwrites (hindex ▸ hfew)
  have hrecords : Segments.records ⟨log.sealed ++ [(log.index, log.active)], log.index + 1, []⟩ =
      log.records :=
    (log.records_seal _ []).trans (List.append_nil _)
  exact
    { h with
      writing := hleft
      ready := ⟨_, _, hrun, ⟨hindex, rfl, rfl, hrecords.symm ▸ hwrites.last⟩,
        hrecords.symm ▸ hrest⟩ }

/-- **What a step of an open auction keeps.** -/
theorem step (hc : c.Lawful) (h : live.Sound c config n dir) {move : Machine.Move}
    {out : Machine.Outcome} (hstep : Machine.stepLive c dir live move = some (dir', live', out))
    (hfew : live'.wal.activeIndex < SEGMENTS) : live'.Sound c config n dir' := by
  cases move with
  | «open» | call | kill => cases hstep
  | command ts cmd =>
    obtain ⟨next, hnext, hstep⟩ := Option.bind_eq_some_iff.mp hstep
    obtain ⟨r, happly, heq⟩ := Option.map_eq_some_iff.mp hstep
    cases heq
    exact h.command hnext happly
  | append =>
    rw [Machine.stepLive] at hstep
    split at hstep
    · rename_i record queue hidle hqueue
      obtain ⟨w, dir'', happend, hsound⟩ := h.append hc hidle hqueue
      rw [happend] at hstep
      cases hstep
      exact hsound hfew
    · cases hstep
  | sync =>
    rw [Machine.stepLive] at hstep
    split at hstep
    · cases hstep
      exact h.sync ‹_›
    · cases hstep
  | rotate =>
    rw [Machine.stepLive] at hstep
    split at hstep
    · cases hstep
      exact h.rotate ‹_› hfew
    · cases hstep
  | write =>
    rw [Machine.stepLive] at hstep
    split at hstep
    · cases hstep
    · rename_i call calls hcalls
      cases hstep
      have hready := h.ready
      have hwriting := h.writing
      rw [hcalls] at hready hwriting
      exact
        { h with
          writing := fun t ht ↦ hwriting t ht.behind
          ready := hready }
  | hand =>
    rw [Machine.stepLive] at hstep
    split at hstep
    · cases hstep
    · cases hstep
      refine { h with handed := fun state hstate ↦ ?_ }
      cases hstate
      exact h.savable
  | take =>
    rw [Machine.stepLive] at hstep
    split at hstep
    · rename_i state hidle hhanded
      cases hstep
      have hsaving := h.saving
      rw [hidle] at hsaving
      exact
        { h with
          saving := fun t ht ↦
            (hsaving _ (Interrupted.Effect.Left.before _ _)).save (h.handed state hhanded) ht
          handed := fun _ hs ↦ absurd hs (Option.not_mem_none _) }
    · cases hstep
  | save =>
    rw [Machine.stepLive] at hstep
    split at hstep
    · cases hstep
    · rename_i call calls hcalls
      cases hstep
      have hsaving := h.saving
      rw [hcalls] at hsaving
      exact { h with saving := fun t ht ↦ hsaving t ht.behind }

end Sound

end Live

/-! ## Where a process can be killed

Opening is a list of calls like the others. Killed inside the creation of the manifest it leaves a
file that no open accepts, and killed anywhere else a directory that is there whole. -/

theorem Enters.call {o : Opened} {call : SegCall} {calls : List SegCall}
    (h : Enters c config dir o (call :: calls)) :
    Enters c config { dir with segs := call.apply dir.segs } o calls where
  killed t ht := h.killed t ht.behind
  ready := h.ready
  at_next := h.at_next
  config := h.config

theorem Enters.resumable {o : Opened} {calls : List SegCall} {t : Segs}
    (h : Enters c config dir o calls) (hmanifest : dir.manifest = some (.ok config))
    (ht : segCalls.Left calls dir.segs t) : Resumable c config { dir with segs := t } :=
  Or.inr ⟨hmanifest, h.killed t ht⟩

namespace Machine

variable {m m' : Machine} {inside : Option ℕ}

theorem cutFirst_left (inside : Option ℕ) (calls : List SegCall) (segs : Segs) :
    segCalls.Left calls segs (cutFirst inside calls segs) := by
  cases calls with
  | nil => exact Interrupted.Effect.Left.before _ _
  | cons call calls =>
    cases inside with
    | none => exact Interrupted.Effect.Left.before _ _
    | some n => exact Interrupted.Effect.Left.inside n _ _ _

/-- What holds as long as no kill has torn the manifest. -/
def Sane (c : Codec) (config : AuctionConfig) (m : Machine) : Prop :=
  match m.phase with
  | .down => Resumable c config m.dir
  | .founding o calls =>
    (m.dir.manifest = none ∧ m.dir.segs.entries = [] ∧ m.dir.snaps.entries = []) ∧
      Enters c config m.dir o calls
  | .describing o calls => Enters c config m.dir o calls
  | .opening o calls => m.dir.manifest = some (.ok config) ∧ Enters c config m.dir o calls
  | .up live => ∃ n, live.Sound c config n m.dir

theorem Sane.killed (htext : text.Lawful config) (h : m.Sane c config)
    (hwhole : ¬m.Tears text config inside) : Resumable c config (m.killed text config inside) := by
  obtain ⟨dir, phase⟩ := m
  cases phase with
  | down => exact h
  | founding o calls => exact Or.inl h.1
  | describing o calls =>
    have hlength : (text.toVecPretty config).length ≤ inside.getD 0 := Nat.le_of_not_lt hwhole
    have hmanifest : some (text.fromSlice ((text.toVecPretty config).take (inside.getD 0))) =
        some (.ok config) := by
      rw [List.take_of_length_le hlength, htext.whole]
    exact Or.inr ⟨hmanifest, Enters.killed h _ (Interrupted.Effect.Left.before _ _)⟩
  | opening o calls => exact h.2.resumable h.1 (cutFirst_left _ _ _)
  | up live =>
    obtain ⟨n, hsound⟩ := h
    obtain ⟨log, file, hlies, -⟩ := hsound.ready
    refine Or.inr ⟨hsound.manifest, n, ?_, hsound.writing _ (cutFirst_left _ _ _),
      hsound.saving _ (Interrupted.Effect.Left.before _ _)⟩
    exact (Nat.le_add_right _ _).trans_lt hlies.bound

theorem Sane.open (hc : c.Lawful) (h : Resumable c config dir) {segmentBytes : U64} {out : Outcome}
    (hstep : step c text config ⟨dir, .down⟩ (.open segmentBytes) = some (m', out)) :
    m'.Sane c config := by
  obtain ⟨o, hopen, henters⟩ := h.opens hc segmentBytes
  rw [step] at hstep
  dsimp only at hstep
  rw [hopen] at hstep
  rcases h with hnew | ⟨hmanifest, -⟩
  · rw [hnew.1] at hstep
    cases hstep
    exact ⟨hnew, henters⟩
  · rw [hmanifest] at hstep
    cases hstep
    exact ⟨hmanifest, henters⟩

theorem Sane.call (htext : text.Lawful config) (h : m.Sane c config) {out : Outcome}
    (hstep : step c text config m .call = some (m', out)) : m'.Sane c config := by
  obtain ⟨dir, phase⟩ := m
  cases phase with
  | down | up => cases hstep
  | founding o calls =>
    cases hstep
    exact ⟨h.2.killed, h.2.ready, h.2.at_next, h.2.config⟩
  | describing o calls =>
    obtain ⟨hkilled, hready, hat, hconfig⟩ : Enters c config dir o calls := h
    cases hstep
    exact ⟨congrArg some htext.whole, hkilled, hready, hat, hconfig⟩
  | opening o calls =>
    cases calls with
    | nil =>
      cases hstep
      exact Live.Sound.start h.1 h.2
    | cons call calls =>
      cases hstep
      exact ⟨h.1, h.2.call⟩

/-- **One step** that does not tear the manifest. -/
theorem Sane.step (hc : c.Lawful) (htext : text.Lawful config) (h : m.Sane c config) {move : Move}
    {out : Outcome} (hstep : step c text config m move = some (m', out))
    (hnamed : m'.Named)
    (hwhole : ∀ inside, move = .kill inside → ¬m.Tears text config inside) : m'.Sane c config := by
  have hlive : ∀ {dir live r}, m = ⟨dir, .up live⟩ → stepLive c dir live move = some r →
      m' = ⟨r.1, .up r.2.1⟩ → m'.Sane c config := by
    rintro dir live ⟨dir', live', out'⟩ rfl hlive rfl
    obtain ⟨n, hsound⟩ := h
    exact ⟨n, hsound.step hc hlive hnamed⟩
  cases move with
  | «open» segmentBytes =>
    obtain ⟨dir, phase⟩ := m
    cases phase with
    | down => exact Sane.open hc h hstep
    | founding | describing | opening | up => cases hstep
  | call => exact h.call htext hstep
  | kill inside =>
    cases hstep
    exact h.killed htext (hwhole inside rfl)
  | command | append | sync | rotate | write | hand | take | save =>
    obtain ⟨dir, phase⟩ := m
    cases phase with
    | down | founding | describing | opening => cases hstep
    | up live =>
      obtain ⟨r, hr, heq⟩ := Option.map_eq_some_iff.mp hstep
      exact hlive rfl hr (congrArg Prod.fst heq).symm

theorem Tears.not_opens (htext : text.Lawful config) (h : m.Tears text config inside) :
    ¬Opens c config (m.killed text config inside) := by
  obtain ⟨dir, phase⟩ := m
  cases phase with
  | down | founding | opening | up => exact h.elim
  | describing o calls =>
    intro hopens
    obtain ⟨detail, htorn⟩ := htext.torn _ h
    obtain ⟨o', hopen⟩ := hopens 0
    have hmanifest : (Machine.killed text config ⟨dir, .describing o calls⟩ inside).manifest =
        some (.error detail) := congrArg some htorn
    rw [openInner, Codec.recover, Dir.readManifest, hmanifest] at hopen
    cases hopen

/-- **What can be opened after a crash.** Every directory that a killed process leaves can be opened
again exactly when no kill falls between the creation of the manifest and the end of its writing, as
long as the log does not come to a segment that has no name. -/
theorem openable_iff (hc : c.Lawful) (htext : text.Lawful config)
    {tr : List (Runs.Transition Machine Move Outcome)} (hrun : Run c text config tr m)
    (hnamed : ∀ t ∈ tr, t.post.Named) :
    (∀ t ∈ tr, ∀ inside, t.input = .kill inside → Opens c config t.post.dir) ↔
      ∀ t ∈ tr, ∀ inside, t.input = .kill inside → ¬t.pre.Tears text config inside := by
  have hpost : ∀ t ∈ tr, ∀ inside, t.input = .kill inside →
      t.post.dir = t.pre.killed text config inside := by
    intro t ht inside hkill
    have hstep := (hrun.split ht).2
    rw [hkill] at hstep
    exact congrArg (fun r : Machine × Outcome ↦ r.1.dir) (Option.some.inj hstep).symm
  constructor
  · intro hopens t ht inside hkill htears
    exact htears.not_opens htext (hpost t ht inside hkill ▸ hopens t ht inside hkill)
  · intro hwhole t ht inside hkill segmentBytes
    obtain ⟨tr', hpre, hrun'⟩ := (hrun.split ht).1
    have hnew : Sane c config new := Or.inl ⟨rfl, rfl, rfl⟩
    have hsane : t.pre.Sane c config := by
      refine hrun'.invariant_of (P := Sane c config)
        (C := fun t ↦ t.post.Named ∧
          ∀ inside, t.input = .kill inside → ¬t.pre.Tears text config inside)
        hnew ?_ fun u hu ↦ ⟨hnamed u (hpre.mem hu), hwhole u (hpre.mem hu)⟩
      exact fun m move m' out hm hstep hside ↦ hm.step hc htext hstep hside.1 hside.2
    rw [hpost t ht inside hkill]
    obtain ⟨o, hopen, -⟩ := (hsane.killed htext (hwhole t ht inside hkill)).opens hc segmentBytes
    exact ⟨o, hopen⟩

/-! ## One directory -/

/-- The manifest of the sample auction. -/
def sampleManifest : List UInt8 :=
  List.intercalate [10] <| List.map (fun line ↦ line.toList.map fun ch ↦ UInt8.ofNat ch.toNat)
    ["\x7b",
      "  \"auction_id\": \"00000000-0000-0000-0000-000000000000\",",
      "  \"total_supply\": 10,",
      "  \"schedule\": \x7b",
      "    \"start_price\": 1000,",
      "    \"floor_price\": 100,",
      "    \"kind\": \x7b",
      "      \"stepped\": \x7b",
      "        \"step_duration\": 1000000000,",
      "        \"step_size\": 10",
      "      \x7d",
      "    \x7d",
      "  \x7d,",
      "  \"batch_window\": 0,",
      "  \"price_tolerance\": 10",
      "\x7d"]

def sampleText : ManifestText where
  toVecPretty _ := sampleManifest
  fromSlice bytes :=
    if bytes = sampleManifest then .ok (.sample 0)
    else .error "EOF while parsing a value at line 1 column 0"

theorem sampleText_lawful : sampleText.Lawful (.sample 0) where
  whole := by simp only [sampleText, if_true]
  torn n hn := by
    have hne : sampleManifest.take n ≠ sampleManifest := by
      intro heq
      have hlength := congrArg List.length heq
      rw [List.length_take] at hlength
      exact absurd (min_eq_right_iff.mp hlength) (Nat.not_le_of_lt hn)
    refine ⟨"EOF while parsing a value at line 1 column 0", ?_⟩
    simp only [sampleText, hne, if_false]

/-- Two commands are appended, with a kill inside the write of the second. The next process is
killed before it has cut off what is left of it. -/
def tornMoves : List Move :=
  [.open 4096, .call, .call, .call, .call, .command 0 .open, .command 0 .tick, .append, .sync,
    .write, .write, .append, .sync, .kill (some 9), .open 4096, .kill none, .open 4096,
    .call, .call, .call, .call, .hand, .take, .save, .save, .save, .save, .kill none, .open 4096]

theorem openable_iff_sample :
    (∀ t ∈ (Runs.play (step Bincode.codec sampleText (.sample 0)) new tornMoves).1, ∀ inside,
      t.input = .kill inside → Opens Bincode.codec (.sample 0) t.post.dir) ↔
    ∀ t ∈ (Runs.play (step Bincode.codec sampleText (.sample 0)) new tornMoves).1, ∀ inside,
      t.input = .kill inside → ¬t.pre.Tears sampleText (.sample 0) inside :=
  openable_iff Bincode.lawful sampleText_lawful (Runs.run_play _ _ _) (by decide +kernel)

/-- **A manifest that was created and never written** is refused from then on. -/
theorem torn_manifest_refused :
    ∃ tr m, Run Bincode.codec sampleText (.sample 0) tr m ∧
      tr.map Runs.Transition.input = [.open 4096, .call, .kill none] ∧ ∀ segmentBytes,
        openInner Bincode.codec (.sample 0) segmentBytes m.dir =
          some (.error (.corrupt .manifest 0 "EOF while parsing a value at line 1 column 0")) := by
  have hrun := Runs.run_play (step Bincode.codec sampleText (.sample 0)) new
    [.open 4096, .call, .kill none]
  have hstate : (Runs.play (step Bincode.codec sampleText (.sample 0)) new
        [.open 4096, .call, .kill none]).1.map Runs.Transition.input =
        [.open 4096, .call, .kill none] ∧
      (Runs.play (step Bincode.codec sampleText (.sample 0)) new
        [.open 4096, .call, .kill none]).2.dir.manifest =
        some (.error "EOF while parsing a value at line 1 column 0") := by
    decide +kernel
  generalize (Runs.play (step Bincode.codec sampleText (.sample 0)) new
    [.open 4096, .call, .kill none]).1 = tr at hrun hstate
  generalize (Runs.play (step Bincode.codec sampleText (.sample 0)) new
    [.open 4096, .call, .kill none]).2 = m at hrun hstate
  obtain ⟨hinputs, hmanifest⟩ := hstate
  refine ⟨tr, m, hrun, hinputs, fun segmentBytes ↦ ?_⟩
  rw [openInner, Codec.recover, Dir.readManifest, hmanifest]
  rfl

end Machine

end DutchAuction
