import DutchAuction.Wal.Recovery

/-!
# An auction over its restarts

One auction on one disk, over any number of process lives. The engine applies a command at the next
position and submits its record; the writer syncs what has been submitted, in order; an answer goes
out once the record is synced; at the points the engine chooses, the state it has just reached is
handed to the snapshot thread, which writes it as a file at any later moment and deletes old files.
A crash leaves the synced log and the files; opening the auction again runs recovery and resumes
with whatever commands arrive.

A snapshot can reach the disk before the records behind it do. Every file therefore also carries,
for the statements below, the records behind its state (`Site.made`): after a crash a file may be
ahead of the log, and its records may never come to be in it.
-/

namespace DutchAuction

/-- What the engine is tuned with. -/
structure EngineOptions where
  /-- Take a snapshot roughly every this many commands. -/
  snapshotEvery : U64

/-! ## One process -/

/-- A state handed to the snapshot thread, and the records behind it. -/
structure Handed where
  seq : Seq
  state : AuctionState
  records : List LogRecord

/-- What the snapshot thread is doing. -/
inductive SnapshotThread
  | waiting
  | writing (handed : Handed)
  | pruning

/-- One life of the engine and its threads. -/
structure Process where
  state : AuctionState
  nextSeq : Seq
  lastSnapshot : Seq
  /-- Whether the once-only snapshot of the settled auction has been handed off. -/
  snapshottedTerminal : Bool
  /-- Submitted to the writer and not yet synced. -/
  submitted : List LogRecord
  /-- The highest position the writer has published as durable. -/
  durable : Option Seq
  /-- Applied, and waiting on the ack thread. -/
  pending : List LogRecord
  /-- The one slot of the snapshot queue. -/
  queued : Option Handed
  snapshots : SnapshotThread
  /-- The records behind the state. -/
  records : List LogRecord

namespace Process

/-- Offer the state to the snapshot thread: a full queue means one is still being written. -/
def trySend (p : Process) (seq : Seq) : Process × Bool :=
  match p.queued with
  | some _ => (p, false)
  | none => ({ p with queued := some ⟨seq, p.state, p.records⟩, lastSnapshot := seq }, true)

/-- Snapshot if enough has happened, preferring a moment when nothing is waiting. -/
def maybeSnapshot (options : EngineOptions) (p : Process) (seq : Seq) (idle : Bool) : Process :=
  let since := seq.saturatingSub p.lastSnapshot
  let every := options.snapshotEvery
  if (since ≥ every ∧ idle = true) ∨ since ≥ every.saturatingMul 4 then (p.trySend seq).1
  else p

/-- Snapshot a settled auction once. -/
def snapshotTerminal (p : Process) (seq : Seq) : Process :=
  if p.state.status.isTerminal ∧ p.snapshottedTerminal = false then
    match p.trySend seq with
    | (p, true) => { p with snapshottedTerminal := true }
    | (p, false) => p
  else p

/-- One pass of the engine loop: number a command, apply it, submit its record, put it before the
ack thread, and offer snapshots. -/
def run (options : EngineOptions) (p : Process) (ts : Nanos) (cmd : Command) (idle : Bool) :
    Option Process :=
  let seq := p.nextSeq
  seq.next.bind fun next ↦
    (p.state.apply seq ts cmd).map fun r ↦
      let record : LogRecord := ⟨seq, ts, cmd⟩
      let p := { p with
        state := r.1
        nextSeq := next
        submitted := p.submitted ++ [record]
        pending := p.pending ++ [record]
        records := p.records ++ [record] }
      (p.maybeSnapshot options seq idle).snapshotTerminal seq

end Process

/-! ## One disk

The log that is synced and the files of snapshots survive a crash, and nothing else does. -/

/-- The disk, and the process that runs on it if one does. -/
structure Site where
  /-- The log that survives a crash. -/
  synced : List LogRecord
  snaps : Snapshots
  /-- The records behind the state in each file. -/
  made : Seq → List LogRecord
  /-- The commands that have been answered. -/
  acked : List LogRecord
  process : Option Process

/-- What can happen. -/
inductive Move
  /-- The engine takes a command; `idle` is whether nothing else is waiting. -/
  | command (ts : Nanos) (cmd : Command) (idle : Bool)
  /-- The writer syncs the first `n` of the records submitted. -/
  | sync (n : ℕ)
  /-- The ack thread answers the first command that is waiting. -/
  | acknowledge
  /-- The snapshot thread takes what was handed to it, -/
  | take
  /-- renames it into place or fails to, -/
  | write (ok : Bool)
  /-- and deletes up to `n` of the files behind the newest two. -/
  | prune (n : ℕ)
  | crash
  | reopen
deriving DecidableEq

namespace Site

/-- An auction that was never opened. -/
def new : Site := ⟨[], OrdMap.empty, fun _ ↦ [], [], none⟩

/-- The process a recovery starts. -/
def start (s : Site) (r : Recovered) : Process where
  state := r.state
  nextSeq := r.nextSeq
  lastSnapshot := r.nextSeq
  snapshottedTerminal := false
  submitted := []
  durable := s.synced.getLast?.map LogRecord.seq
  pending := []
  queued := none
  snapshots := .waiting
  records :=
    match r.fromSnapshot with
    | none => s.synced
    | some k => s.made k ++ s.synced.filter fun record ↦ k < record.seq

/-- One move. It is undefined where it cannot be made, and where the program stops. -/
def step (config : AuctionConfig) (options : EngineOptions) (s : Site) : Move → Option (Site × Unit)
  | .command ts cmd idle =>
    s.process.bind fun p ↦ (p.run options ts cmd idle).map fun p ↦
      ({ s with process := some p }, ())
  | .sync n =>
    s.process.map fun p ↦
      let synced := s.synced ++ p.submitted.take n
      ({ s with
        synced := synced
        process := some { p with
          submitted := p.submitted.drop n
          durable := synced.getLast?.map LogRecord.seq } }, ())
  | .acknowledge =>
    s.process.bind fun p ↦
      match p.pending with
      | [] => none
      | record :: pending =>
        if p.durable.any fun seq ↦ record.seq ≤ seq then
          some ({ s with
            acked := s.acked ++ [record]
            process := some { p with pending := pending } }, ())
        else none
  | .take =>
    s.process.bind fun p ↦
      match p.snapshots, p.queued with
      | .waiting, some handed =>
        some ({ s with
          process := some { p with snapshots := .writing handed, queued := none } }, ())
      | _, _ => none
  | .write ok =>
    s.process.bind fun p ↦
      match p.snapshots with
      | .writing handed =>
        if ok then
          some ({ s with
            snaps := (s.snaps.write handed.state).2
            made := fun k ↦
              if (s.snaps.write handed.state).1 = some k then handed.records else s.made k
            process := some { p with snapshots := .pruning } }, ())
        else some ({ s with process := some { p with snapshots := .waiting } }, ())
      | _ => none
  | .prune n =>
    s.process.bind fun p ↦
      match p.snapshots with
      | .pruning =>
        some ({ s with
          snaps := (s.snaps.pruneSome 2 n).2
          process := some { p with snapshots := .waiting } }, ())
      | _ => none
  | .crash => some ({ s with process := none }, ())
  | .reopen =>
    match s.process with
    | some _ => none
    | none =>
      match recoverFrom config s.synced s.snaps.latestUsable with
      | some (.ok r) =>
        if r.state.config = config then some ({ s with process := some (s.start r) }, ()) else none
      | _ => none

/-- The runs of one auction over its restarts. -/
abbrev Run (config : AuctionConfig) (options : EngineOptions) :
    List (Runs.Transition Site Move Unit) → Site → Prop :=
  Runs.Run (step config options) new

/-- The snapshot that recovery would start from is of the log: the records behind it are the first
records of the log. -/
def Current (s : Site) : Prop :=
  ∀ f ∈ s.snaps.latestUsable, ¬EndsBefore s.synced f → s.made f.seq <+: s.synced

instance (s : Site) : Decidable s.Current :=
  inferInstanceAs (Decidable (∀ f ∈ s.snaps.latestUsable,
    ¬EndsBefore s.synced f → s.made f.seq <+: s.synced))

/-- **Recovery is exact**: it gives the replay of the synced log, which has every command that was
answered. -/
def RecoversExactly (config : AuctionConfig) (s : Site) : Prop :=
  (∃ r, recoverFrom config s.synced s.snaps.latestUsable = some (.ok r) ∧
    fullReplay config s.synced = some r.state) ∧ ∀ record ∈ s.acked, record ∈ s.synced

/-! ## The invariant

A process that was started by a recovery goes on from where the log leads, as long as it started
from a state of that log. -/

/-- The state is the one the records lead to, and the last of them is at `seq`. -/
structure Behind (config : AuctionConfig) (records : List LogRecord) (seq : Seq)
    (state : AuctionState) : Prop where
  numbered : NumberedFrom 0 records
  replay : fullReplay config records = some state
  last : ∃ r ∈ records.getLast?, r.seq = seq

/-- A process whose state is the replay of the log and of what it has submitted. -/
structure Faithful (config : AuctionConfig) (synced : List LogRecord) (p : Process) : Prop where
  numbered : NumberedFrom 0 (synced ++ p.submitted)
  next : p.nextSeq.val = (synced ++ p.submitted).length
  replay : fullReplay config (synced ++ p.submitted) = some p.state
  records : p.records = synced ++ p.submitted
  durable : ∀ seq ∈ p.durable, seq.val < synced.length
  pending : ∀ record ∈ p.pending, record ∈ synced ++ p.submitted
  queued : ∀ h ∈ p.queued, Behind config h.records h.seq h.state
  writing : ∀ h, p.snapshots = .writing h → Behind config h.records h.seq h.state

/-- What holds between any two moves, if recovery never started from a snapshot that is not of the
log. -/
structure Sound (config : AuctionConfig) (s : Site) : Prop where
  numbered : NumberedFrom 0 s.synced
  short : s.synced.length < 2 ^ 64
  files : ∀ k file, (k, file) ∈ s.snaps.entries →
    ∃ state, file = .ok ⟨k, state⟩ ∧ Behind config (s.made k) k state
  acked : ∀ record ∈ s.acked, record ∈ s.synced
  process : ∀ p, s.process = some p → Faithful config s.synced p

variable {config : AuctionConfig} {options : EngineOptions} {s s' : Site} {p p' : Process}

theorem new_sound (config : AuctionConfig) : new.Sound config where
  numbered := trivial
  short := Nat.two_pow_pos 64
  files _ _ h := absurd h List.not_mem_nil
  acked _ h := absurd h List.not_mem_nil
  process _ h := absurd h.symm (Option.some_ne_none _)

/-! ## The engine -/

theorem offers (options : EngineOptions) (p : Process) (seq : Seq) (idle : Bool) :
    ∃ queued last once, (p.maybeSnapshot options seq idle).snapshotTerminal seq =
        { p with queued := queued, lastSnapshot := last, snapshottedTerminal := once } ∧
      (queued = p.queued ∨ queued = some ⟨seq, p.state, p.records⟩) := by
  have htry : ∀ p : Process, ∃ queued last, (p.trySend seq).1 =
      { p with queued := queued, lastSnapshot := last } ∧
        (queued = p.queued ∨ queued = some ⟨seq, p.state, p.records⟩) := by
    intro p
    rw [Process.trySend]
    split
    · exact ⟨p.queued, p.lastSnapshot, rfl, Or.inl rfl⟩
    · exact ⟨_, _, rfl, Or.inr rfl⟩
  have hmaybe : ∃ queued last, p.maybeSnapshot options seq idle =
      { p with queued := queued, lastSnapshot := last } ∧
        (queued = p.queued ∨ queued = some ⟨seq, p.state, p.records⟩) := by
    rw [Process.maybeSnapshot]
    split_ifs
    · exact htry p
    · exact ⟨p.queued, p.lastSnapshot, rfl, Or.inl rfl⟩
  obtain ⟨queued, last, heq, hqueued⟩ := hmaybe
  rw [heq, Process.snapshotTerminal]
  split_ifs
  · obtain ⟨queued', last', heq', hqueued'⟩ :=
      htry { p with queued := queued, lastSnapshot := last }
    have hwhich : queued' = p.queued ∨ queued' = some ⟨seq, p.state, p.records⟩ := by
      rcases hqueued' with h | h
      · exact hqueued.imp h.trans h.trans
      · exact Or.inr h
    split
    · rename_i q hq
      have hfst := (congrArg Prod.fst hq).symm.trans heq'
      exact ⟨queued', last', true, by rw [show q = _ from hfst], hwhich⟩
    · rename_i q hq
      have hfst := (congrArg Prod.fst hq).symm.trans heq'
      exact ⟨queued', last', p.snapshottedTerminal, by rw [show q = _ from hfst], hwhich⟩
  · exact ⟨queued, last, p.snapshottedTerminal, rfl, hqueued⟩

/-- **One pass of the engine loop** keeps the process faithful. -/
theorem Faithful.run {synced : List LogRecord} (h : Faithful config synced p) {ts : Nanos}
    {cmd : Command} {idle : Bool} (hrun : p.run options ts cmd idle = some p') :
    Faithful config synced p' := by
  obtain ⟨next, hnext, happly⟩ := Option.bind_eq_some_iff.mp hrun
  obtain ⟨r, hr, heq⟩ := Option.map_eq_some_iff.mp happly
  dsimp only at heq
  obtain ⟨queued, last, once, hoffers, hqueued⟩ := offers options { p with
    state := r.1
    nextSeq := next
    submitted := p.submitted ++ [⟨p.nextSeq, ts, cmd⟩]
    pending := p.pending ++ [⟨p.nextSeq, ts, cmd⟩]
    records := p.records ++ [⟨p.nextSeq, ts, cmd⟩] } p.nextSeq idle
  rw [hoffers] at heq
  subst heq
  have hnumbered : NumberedFrom 0 (synced ++ (p.submitted ++ [⟨p.nextSeq, ts, cmd⟩])) := by
    rw [← List.append_assoc, NumberedFrom.append]
    exact ⟨h.numbered, by rw [Nat.zero_add]; exact h.next, trivial⟩
  have hreplay : fullReplay config (synced ++ (p.submitted ++ [⟨p.nextSeq, ts, cmd⟩])) =
      some r.1 := by
    have hfollow : follow p.state ⟨p.nextSeq, ts, cmd⟩ = some r.1 := by
      rw [follow, show p.state.step ⟨p.nextSeq, ts, cmd⟩ = some r from hr, Option.map_some]
    rw [← List.append_assoc, fullReplay_append, h.replay, Option.bind_some, applyAll, hfollow]
    rfl
  have hrecords : p.records ++ [⟨p.nextSeq, ts, cmd⟩] =
      synced ++ (p.submitted ++ [⟨p.nextSeq, ts, cmd⟩]) := by rw [h.records, List.append_assoc]
  have hbehind : Behind config (p.records ++ [⟨p.nextSeq, ts, cmd⟩]) p.nextSeq r.1 := by
    refine ⟨hrecords ▸ hnumbered, hrecords ▸ hreplay, ⟨p.nextSeq, ts, cmd⟩, ?_, rfl⟩
    rw [List.getLast?_concat]
    rfl
  exact
    { numbered := hnumbered
      next := by
        rw [Seq.next_eq_some.mp hnext, h.next, ← List.append_assoc, List.length_append,
          List.length_append, List.length_append]
        rfl
      replay := hreplay
      records := hrecords
      durable := h.durable
      pending := fun record hrecord ↦ by
        rw [← List.append_assoc]
        rcases List.mem_append.mp hrecord with hrecord | hrecord
        · exact List.mem_append_left _ (h.pending record hrecord)
        · exact List.mem_append_right _ hrecord
      queued := fun handed hhanded ↦ by
        rcases hqueued with hq | hq
        · exact h.queued handed (hq ▸ hhanded)
        · cases hq.symm.trans hhanded
          exact hbehind
      writing := h.writing }

/-! ## Recovery

From a snapshot that is of the log, and from none, recovery gives the state that the log leads to.
A snapshot that is ahead of the log is ignored. -/

/-- **Recovery from a snapshot of the log, or from none, is exact.** -/
theorem Sound.recover (h : Sound config s) (hcurrent : s.Current) :
    ∃ r, recoverFrom config s.synced s.snaps.latestUsable = some (.ok r) ∧
      fullReplay config s.synced = some r.state ∧ r.nextSeq.val = s.synced.length ∧
      (s.start r).records = s.synced := by
  -- The records behind a file of the log are its first.
  have hfile : ∀ f ∈ s.snaps.latestUsable, ¬EndsBefore s.synced f →
      f.seq.val < s.synced.length ∧ s.made f.seq = s.synced.take (f.seq.val + 1) ∧
        fullReplay config (s.synced.take (f.seq.val + 1)) = some f.state := by
    intro f hf hused
    obtain ⟨k, hmem, -⟩ := Snapshots.latestUsable_eq_some hf
    obtain ⟨state, heq, hbehind⟩ := h.files k _ hmem
    cases heq
    obtain ⟨r, hr, hseq⟩ := hbehind.last
    have hlen := hbehind.numbered.getLast? hr
    rw [hseq, Nat.zero_add] at hlen
    have hpre : s.made k <+: s.synced := hcurrent _ hf hused
    have htake : s.made k = s.synced.take (k.val + 1) := by
      rw [hlen]
      exact List.prefix_iff_eq_take.mp hpre
    refine ⟨?_, htake, htake ▸ hbehind.replay⟩
    show k.val < s.synced.length
    have hle := hpre.length_le
    omega
  obtain ⟨next, hlen⟩ : ∃ next : Seq, s.synced.length = next.val :=
    ⟨⟨s.synced.length, h.short⟩, rfl⟩
  obtain ⟨r, hrecover, hstate, hnext, hfrom⟩ := recoverFrom_honest h.numbered hlen
    fun f hf ↦ by
      by_cases hused : EndsBefore s.synced f
      · exact Or.inl hused
      · obtain ⟨hlt, -, hpre⟩ := hfile f hf hused
        exact Or.inr ⟨hlt, hpre⟩
  refine ⟨r, hrecover, hstate, (congrArg U64.val hnext).trans hlen.symm, ?_⟩
  rcases hfrom with ⟨hnone, -⟩ | ⟨f, hf, hused, hsome, -⟩
  · rw [start, hnone]
  · rw [start, hsome]
    dsimp only
    rw [(hfile f hf hused).2.1, h.numbered.filter_after, Nat.sub_zero, List.take_append_drop]

theorem Sound.recoversExactly (h : Sound config s) (hcurrent : s.Current) :
    s.RecoversExactly config := by
  obtain ⟨r, hrecover, hstate, -⟩ := h.recover hcurrent
  exact ⟨⟨r, hrecover, hstate⟩, h.acked⟩

/-! ## Every move keeps the invariant

A crash loses what was submitted and not synced, which is how a file comes to be ahead of the log.
-/

theorem Behind.write {records : List LogRecord} {seq : Seq} {state : AuctionState}
    (h : Behind config records seq state) (snaps : Snapshots) :
    snaps.write state = (some seq, snaps.upsert seq fun _ ↦ .ok ⟨seq, state⟩) := by
  obtain ⟨r, hr, rfl⟩ := h.last
  have hseq : state.lastSeq = some r.seq := by
    rw [applyAll_lastSeq h.replay, Option.mem_def.mp hr]
    rfl
  rw [Snapshots.write, hseq]

theorem Faithful.mem_synced {synced : List LogRecord} (h : Faithful config synced p)
    {record : LogRecord} {pending : List LogRecord} (hpending : p.pending = record :: pending)
    (hdurable : p.durable.any (fun seq ↦ record.seq ≤ seq) = true) : record ∈ synced := by
  obtain ⟨seq, hseq, hle⟩ := (Option.any_eq_true _ _).mp hdurable
  have hlt := h.durable seq hseq
  have hle : record.seq.val ≤ seq.val := of_decide_eq_true hle
  have hboth := NumberedFrom.append.mp h.numbered
  rcases List.mem_append.mp (h.pending record (hpending ▸ List.mem_cons_self)) with hr | hr
  · exact hr
  · have := (hboth.2.le_of_mem hr).1
    omega

theorem Faithful.sync {synced : List LogRecord} (h : Faithful config synced p) (n : ℕ) :
    Faithful config (synced ++ p.submitted.take n) { p with
      submitted := p.submitted.drop n
      durable := (synced ++ p.submitted.take n).getLast?.map LogRecord.seq } := by
  have hsplit : (synced ++ p.submitted.take n) ++ p.submitted.drop n = synced ++ p.submitted := by
    rw [List.append_assoc, List.take_append_drop]
  have hnumbered : NumberedFrom 0 (synced ++ p.submitted.take n) := by
    have h := h.numbered
    rw [← hsplit, NumberedFrom.append] at h
    exact h.1
  exact
    { numbered := hsplit.symm ▸ h.numbered
      next := hsplit.symm ▸ h.next
      replay := hsplit.symm ▸ h.replay
      records := hsplit.symm ▸ h.records
      durable := fun seq hseq ↦ by
        obtain ⟨r, hr, rfl⟩ := Option.map_eq_some_iff.mp hseq
        have := hnumbered.getLast? hr
        omega
      pending := hsplit.symm ▸ h.pending
      queued := h.queued
      writing := h.writing }

theorem Sound.start (h : Sound config s) {r : Recovered}
    (hstate : fullReplay config s.synced = some r.state)
    (hnext : r.nextSeq.val = s.synced.length) (hrecords : (s.start r).records = s.synced) :
    Faithful config s.synced (s.start r) := by
  have hnil : s.synced ++ (s.start r).submitted = s.synced := List.append_nil _
  exact
    { numbered := hnil.symm ▸ h.numbered
      next := hnil.symm ▸ hnext
      replay := hnil.symm ▸ hstate
      records := hnil.symm ▸ hrecords
      durable := fun seq hseq ↦ by
        obtain ⟨r, hr, rfl⟩ := Option.map_eq_some_iff.mp hseq
        have := h.numbered.getLast? hr
        omega
      pending := fun _ hr ↦ absurd hr List.not_mem_nil
      queued := fun _ hh ↦ absurd hh (Option.not_mem_none _)
      writing := fun _ hh ↦ nomatch hh }

theorem Sound.of_faithful {synced acked : List LogRecord} {snaps : Snapshots}
    {made : Seq → List LogRecord} (h : Faithful config synced p)
    (hfiles : ∀ k file, (k, file) ∈ snaps.entries →
      ∃ state, file = .ok ⟨k, state⟩ ∧ Behind config (made k) k state)
    (hacked : ∀ record ∈ acked, record ∈ synced) :
    Sound config ⟨synced, snaps, made, acked, some p⟩ where
  numbered := (NumberedFrom.append.mp h.numbered).1
  short := by
    have hlt := p.nextSeq.val_lt
    rw [h.next, List.length_append] at hlt
    show synced.length < 2 ^ 64
    omega
  files := hfiles
  acked := hacked
  process _ hp := Option.some.inj hp ▸ h

/-- **What one move keeps.** -/
theorem Sound.step (h : Sound config s) {move : Move} {out : Unit}
    (hstep : s.step config options move = some (s', out))
    (hcurrent : move = .reopen → s.Current) : Sound config s' := by
  cases move with
  | command ts cmd idle =>
    obtain ⟨p, hp, hrun⟩ := Option.bind_eq_some_iff.mp hstep
    obtain ⟨p', hrun', heq⟩ := Option.map_eq_some_iff.mp hrun
    cases heq
    exact Sound.of_faithful ((h.process p hp).run hrun') h.files h.acked
  | sync n =>
    obtain ⟨p, hp, heq⟩ := Option.map_eq_some_iff.mp hstep
    cases heq
    exact Sound.of_faithful ((h.process p hp).sync n) h.files
      fun r hr ↦ List.mem_append_left _ (h.acked r hr)
  | acknowledge =>
    obtain ⟨p, hp, hack⟩ := Option.bind_eq_some_iff.mp hstep
    have hfaithful := h.process p hp
    cases hpending : p.pending with
    | nil =>
      rw [hpending] at hack
      cases hack
    | cons record pending =>
      rw [hpending] at hack
      dsimp only at hack
      split_ifs at hack with hdurable
      cases hack
      have hsynced := hfaithful.mem_synced hpending hdurable
      refine Sound.of_faithful { hfaithful with pending := fun r hr ↦ ?_ } h.files fun r hr ↦ ?_
      · exact hfaithful.pending r (hpending ▸ List.mem_cons_of_mem _ hr)
      · rcases List.mem_append.mp hr with hr | hr
        · exact h.acked r hr
        · rwa [List.mem_singleton.mp hr]
  | take =>
    obtain ⟨p, hp, htake⟩ := Option.bind_eq_some_iff.mp hstep
    have hfaithful := h.process p hp
    split at htake
    · rename_i handed hwaiting hqueued
      cases htake
      refine Sound.of_faithful { hfaithful with queued := ?_, writing := ?_ } h.files h.acked
      · exact fun _ hh ↦ absurd hh (Option.not_mem_none _)
      · rintro _ ⟨rfl⟩
        exact hfaithful.queued handed hqueued
    · cases htake
  | write ok =>
    obtain ⟨p, hp, hwrite⟩ := Option.bind_eq_some_iff.mp hstep
    have hfaithful := h.process p hp
    split at hwrite
    · rename_i handed hwriting
      have hbehind := hfaithful.writing handed hwriting
      cases ok with
      | false =>
        cases hwrite
        exact Sound.of_faithful { hfaithful with writing := fun _ hh ↦ nomatch hh } h.files h.acked
      | true =>
        cases hwrite
        refine Sound.of_faithful { hfaithful with writing := fun _ hh ↦ nomatch hh } ?_ h.acked
        rw [hbehind.write]
        intro k file hmem
        rcases OrdMap.mem_entries_upsert hmem with ⟨old, heq⟩ | ⟨hne, hmem⟩
        · obtain ⟨rfl, rfl⟩ := Prod.ext_iff.mp heq
          refine ⟨handed.state, rfl, ?_⟩
          rw [if_pos rfl]
          exact hbehind
        · obtain ⟨state, hstate, hold⟩ := h.files k file hmem
          refine ⟨state, hstate, ?_⟩
          rw [if_neg fun heq ↦ hne (Option.some.inj heq).symm]
          exact hold
    · cases hwrite
  | prune n =>
    obtain ⟨p, hp, hprune⟩ := Option.bind_eq_some_iff.mp hstep
    have hfaithful := h.process p hp
    split at hprune
    · cases hprune
      exact Sound.of_faithful { hfaithful with writing := fun _ hh ↦ nomatch hh }
        (fun k file hmem ↦ h.files k file (List.mem_of_mem_filter hmem)) h.acked
    · cases hprune
  | crash =>
    cases hstep
    exact { h with process := fun _ hp ↦ nomatch hp }
  | reopen =>
    obtain ⟨r, hrecover, hstate, hnext, hrecords⟩ := h.recover (hcurrent rfl)
    rw [Site.step] at hstep
    split at hstep
    · cases hstep
    · rw [hrecover] at hstep
      dsimp only at hstep
      split_ifs at hstep
      cases hstep
      exact Sound.of_faithful (h.start hstate hnext hrecords) h.files h.acked

/-! ## Crash safety -/

variable {tr : List (Runs.Transition Site Move Unit)}

theorem run_sound (hrun : Run config options tr s)
    (hcurrent : ∀ t ∈ tr, t.input = .reopen → t.pre.Current) : Sound config s :=
  hrun.invariant_of (P := Sound config) (C := fun t ↦ t.input = .reopen → t.pre.Current)
    (new_sound config) (fun _ _ _ _ h hstep hcurrent ↦ h.step hstep hcurrent) hcurrent

/-- **Recovery is exact at every reopening** of a run in which no reopening finds, as the snapshot
to start from, one that is not of the log. -/
theorem recovery_exact (hrun : Run config options tr s)
    (hcurrent : ∀ t ∈ tr, t.input = .reopen → t.pre.Current) :
    (∀ t ∈ tr, t.input = .reopen → t.pre.RecoversExactly config) ∧
      (s.Current → s.RecoversExactly config) := by
  refine ⟨fun t ht hreopen ↦ ?_, fun h ↦ (run_sound hrun hcurrent).recoversExactly h⟩
  obtain ⟨⟨tr', hle, hpre⟩, -⟩ := hrun.split ht
  exact (run_sound hpre fun t' ht' ↦ hcurrent t' (hle.subset ht')).recoversExactly
    (hcurrent t ht hreopen)

/-- A snapshot of the second command reaches the disk and its record does not. -/
def strandedMoves : List Move :=
  [.reopen, .command 0 .open false, .command 0 (.setCollateral 1 100) true, .sync 1, .take,
    .write true, .crash, .reopen]

/-- The log ends before the snapshot, which is ignored. -/
theorem recovery_exact_stranded :
    (∀ t ∈ (Runs.play (step (.sample 0) ⟨1⟩) new strandedMoves).1,
      t.input = .reopen → t.pre.RecoversExactly (.sample 0)) ∧
    ((Runs.play (step (.sample 0) ⟨1⟩) new strandedMoves).2.Current →
      (Runs.play (step (.sample 0) ⟨1⟩) new strandedMoves).2.RecoversExactly (.sample 0)) :=
  recovery_exact (Runs.run_play _ _ _) (by decide +kernel)

/-- **An answered command is lost.** In the next life another command takes the position of the one
whose record was lost; it is synced and answered; and after one more crash recovery takes the
snapshot of the first life for the state of the log. -/
theorem answered_command_lost :
    ∃ tr s r, Run (.sample 0) ⟨1⟩ tr s ∧ ⟨1, 0, .setCollateral 2 200⟩ ∈ s.acked ∧
      recoverFrom (.sample 0) s.synced s.snaps.latestUsable = some (.ok r) ∧
      r.state.collateral 2 = none ∧ ¬s.RecoversExactly (.sample 0) := by
  let moves := strandedMoves ++
    [.command 0 (.setCollateral 2 200) false, .sync 1, .acknowledge, .crash]
  have hrun := Runs.run_play (step (.sample 0) ⟨1⟩) new moves
  have hfunded : (fullReplay (.sample 0)
      (Runs.play (step (.sample 0) ⟨1⟩) new moves).2.synced).map (fun s ↦ s.collateral 2) =
        some (some ⟨200, 0⟩) := rfl
  refine ⟨_, _, _, hrun, by decide, rfl, rfl, ?_⟩
  rintro ⟨⟨r, hrecover, hfull⟩, -⟩
  cases hrecover
  rw [hfull] at hfunded
  cases Option.some.inj hfunded

end Site

end DutchAuction
