import DutchAuction.Engine.Pipeline
import DutchAuction.Wal.History
import DutchAuction.Wal.Watermark

/-!
# One history over many lives

An auction directory and the processes that run on it, one after another. Each opens the directory,
which recovers the auction, and runs the pipeline: the engine applies commands, the commit thread
writes the log, the ack thread lets out views, events and answers. Now and then the state after a
command is saved as a snapshot. At any moment while it runs the process dies, and the final segment
of the log may lose every byte that no sync covers.

Whoever listens does not see the lives. What he is told in all of them together is what one replay
of one log says: each thing at most once, in the order of the commands, and none of it is ever taken
back by a crash (`one_history`). The log of a life is read as a `History`, and what its readers rely
on is what `History.Valid` keeps.

That is so in runs in which every step is `Calm`: no call on the files fails, what is saved is the
state after a command that is synced, and the segments have names. A state saved ahead of the sync
can outlive its commands, and then a later life starts from what no log says. Opening is one step
here, so no process dies in it; a manifest that a death has cut off is never opened again.
-/

namespace DutchAuction

/-! ## What the outside is told -/

/-- What is let out, without the address of an answer. -/
inductive Said
  | view (seq : Seq) (view : View)
  | event (seq : Seq) (event : Event)
  | answer (seq : Seq) (events : List Event)

def Emission.said : Emission → Said
  | .view seq v => .view seq v
  | .event seq e => .event seq e
  | .reply seq _ events => .answer seq events

/-- All that can be said of a command: the state it led to and its events, if there are any, and
the answer. -/
def disclosed (t : Transition) : List Said :=
  (if t.out = [] then [] else [.view t.input.seq (View.of t.post)]) ++
    (t.out.map (.event t.input.seq) ++ [.answer t.input.seq t.out])

theorem Applied.said_sublist (a : Applied) :
    (a.emissions.map Emission.said).Sublist (disclosed a.transition) := by
  rw [Applied.emissions, Pending.emissions, disclosed, List.map_append, List.map_append]
  refine List.Sublist.append ?_ (List.Sublist.append ?_ ?_)
  · rw [Applied.pending]
    dsimp only
    split_ifs
    · exact List.Sublist.refl _
    · exact List.Sublist.refl _
  · rw [List.map_map]
    exact List.Sublist.refl _
  · cases hreply : a.pending.reply with
    | none => exact List.nil_sublist _
    | some receiver => exact List.Sublist.refl _

/-- What was told is what the replay of these records says, each thing at most once and in its
order. -/
def Told (config : AuctionConfig) (records : List LogRecord) (told : List Emission) : Prop :=
  (told.map Emission.said).Sublist ((play config records).1.flatMap disclosed)

theorem Told.mono {config : AuctionConfig} {records longer : List LogRecord} {told : List Emission}
    (h : Told config records told) (hfront : records <+: longer) : Told config longer told := by
  obtain ⟨more, rfl⟩ := hfront
  obtain ⟨rest, hrest⟩ := Runs.play_prefix AuctionState.step (AuctionState.new config) records more
  refine List.Sublist.trans h ?_
  rw [DutchAuction.play, DutchAuction.play, ← hrest, List.flatMap_append]
  exact List.sublist_append_left _ _

/-! ## Lives

One life is a pipeline that was opened on what was read back. Between two lives there is the
directory, and what has been told in the lives before. -/

/-- The last synced length of the final segment, once the writer has gone from `c` to `c'`: a sync
covers all of the segment, nothing of a segment that was just started is synced, and nothing can be
said once a call has failed. -/
def CommitThread.platter (platter : ℕ) (c c' : CommitThread) : ℕ :=
  match c.writer, c'.writer with
  | .writing _ [] _, .publishing wal _ _ => ((c'.dir.segs.get? wal.activeIndex).getD []).length
  | .writing wal (_ :: _) _, .writing wal' _ _ =>
    if wal'.activeIndex = wal.activeIndex then platter else 0
  | .writing _ _ _, .closing (.failed (.io _)) => 0
  | _, _ => platter

/-- A call on the files fails. -/
def Pipeline.Move.fails : Pipeline.Move → Bool
  | .commit (.write (some _)) => true
  | _ => false

/-- Whether a process runs on the directory. -/
inductive Lives.Phase
  | down (dir : Dir)
  | up (p : Pipeline)

structure Lives where
  phase : Lives.Phase
  /-- The last synced length of the final segment. -/
  platter : ℕ
  /-- Everything let out by earlier lives. -/
  before : List Emission

namespace Lives

/-- What can happen. -/
inductive Move
  /-- The auction is opened, with or without a standby. -/
  | «open» (segmentBytes : U64) (replicated : Bool) (instant : Instant)
  /-- The process that runs makes a move. -/
  | live (move : Pipeline.Move)
  /-- The state after the `k`-th command of this life is saved, and up to `n` of the snapshots
  behind the newest two are deleted. -/
  | save (k n : ℕ)
  /-- The process dies. The final segment keeps `len` bytes. -/
  | crash (len : ℕ)

/-- A directory that is not there yet. -/
def new : Lives := ⟨.down Dir.empty, 0, []⟩

/-- The files. -/
def dir (l : Lives) : Dir :=
  match l.phase with
  | .down dir => dir
  | .up p => p.commit.dir

/-- The log that is open on them. -/
def wal? (l : Lives) : Option Wal :=
  match l.phase with
  | .down _ => none
  | .up p => p.commit.writer.wal?

/-- Everything let out in all lives. -/
def told (l : Lives) : List Emission :=
  match l.phase with
  | .down _ => l.before
  | .up p => l.before ++ p.emitted

/-- The log of these lives, as a history: what has been appended, and what is synced. -/
def history (l : Lives) (appended synced : List LogRecord) : History :=
  ⟨l.dir, l.wal?, appended, synced, l.platter⟩

/-- Save a state and delete old ones. -/
def saved (dir : Dir) (state : AuctionState) (n : ℕ) : Dir :=
  { dir with snaps := ((dir.snaps.write state).2.pruneSome 2 n).2 }

/-- One move. Only what is not running is opened, and only what is running moves. -/
def step (codec : Codec) (config : AuctionConfig) (options : ThreadOptions) (l : Lives) :
    Move → Option (Lives × Option Pipeline.Output)
  | .open segmentBytes replicated instant =>
    match l.phase with
    | .up _ => none
    | .down dir =>
      match openInner codec config segmentBytes dir with
      | some (.ok o) => some ({ l with phase := .up (Pipeline.start o replicated instant) }, none)
      | _ => none
  | .live move =>
    match l.phase with
    | .down _ => none
    | .up p =>
      (p.step codec options move).map fun r ↦
        ({ l with phase := .up r.1, platter := p.commit.platter l.platter r.1.commit }, r.2)
  | .save k n =>
    match l.phase with
    | .down _ => none
    | .up p =>
      p.applied[k]?.map fun a ↦
        ({ l with phase := .up { p with commit := { p.commit with
          dir := saved p.commit.dir a.transition.post n } } }, none)
  | .crash len =>
    if l.platter ≤ len then
      some (⟨.down (History.cut (l.history [] []).closed len), l.platter, l.told⟩, none)
    else none

/-- The lives of one auction. -/
abbrev Run (codec : Codec) (config : AuctionConfig) (options : ThreadOptions) :
    List (Runs.Transition Lives Move (Option Pipeline.Output)) → Lives → Prop :=
  Runs.Run (step codec config options) new

/-- No call on the files fails, and what is saved is the state after a synced command. -/
def Move.calm (l : Lives) : Move → Bool
  | .live move => !move.fails
  | .save k _ =>
    match l.phase with
    | .down _ => true
    | .up p => k < p.commit.synced.length
  | .open _ _ _ | .crash _ => true

/-- A calm move after which every segment still has a name. -/
def Calm (t : Runs.Transition Lives Move (Option Pipeline.Output)) : Prop :=
  t.input.calm t.pre = true ∧ t.post.dir.segs.entries.length ≤ SEGMENTS

instance : DecidablePred Calm := fun t ↦
  inferInstanceAs (Decidable (t.input.calm t.pre = true ∧
    t.post.dir.segs.entries.length ≤ SEGMENTS))

/-! ## What the log of a life is

The log of a life is a history of its own: what was read back when it was opened, with what its
commit thread has appended behind it. -/

/-- What is synced, as far as this life knows: what an earlier life has left, until a sync of its
own covers everything. -/
inductive Covers (config : AuctionConfig) (base synced : List LogRecord) (c : CommitThread)
    (before : List Emission) : Prop
  | fresh (hnone : c.synced = []) (hfront : synced <+: base) (htold : Told config synced before)
  | own (hsynced : synced = base ++ c.synced) (htold : Told config base before)

/-- A life that was opened on these records. -/
structure Lively (config : AuctionConfig) (mode : ReplicationMode) (p : Pipeline)
    (base appended synced : List LogRecord) (before : List Emission) : Prop where
  sound : ∃ o : Opened, p.Sound o mode ∧ fullReplay config base = some o.state ∧
    o.nextSeq.val = base.length
  appended : appended = base ++ p.commit.appended
  covers : Covers config base synced p.commit before

/-- What holds between any two moves: the files are those of a history, the snapshots are of what
is synced in it, and so is what was told. -/
structure Sound (codec : Codec) (config : AuctionConfig) (mode : ReplicationMode) (l : Lives)
    (appended synced : List LogRecord) : Prop where
  valid : (l.history appended synced).Valid codec config
  founded : l.dir.manifest = none → l.dir.segs.entries = [] ∧ ∃ dir, l.phase = .down dir
  numbered : NumberedFrom 0 appended
  bounded : appended.length < 2 ^ 64
  front : synced <+: appended
  snapshots : l.dir.snaps.Of config synced
  down : ∀ dir, l.phase = .down dir → Told config synced l.before
  up : ∀ p, l.phase = .up p → ∃ base, Lively config mode p base appended synced l.before

end Lives

variable {codec : Codec} {config : AuctionConfig} {options : ThreadOptions} {o : Opened}
  {mode : ReplicationMode} {p p' : Pipeline} {base appended synced : List LogRecord}

/-! ## What a life has told

Nothing is let out that is not synced, so what a life has told is told of synced commands. -/

theorem Pipeline.Sound.emitted_take (h : p.Sound o mode) {n : ℕ}
    (hwithin : ∀ e ∈ p.emitted, o.Within n e.seq) :
    p.emitted <+: (p.applied.take n).flatMap Applied.emissions := by
  rcases le_or_gt p.applied.length n with hle | hlt
  · rw [List.take_of_length_le hle, h.released]
    exact List.prefix_append _ _
  have hsplit := List.take_append_drop n p.applied
  have hwhole := h.released
  have hnum := h.numbered
  rw [Pipeline.records, ← hsplit, List.map_append, NumberedFrom.append] at hnum
  rw [← hsplit, List.flatMap_append] at hwhole
  rcases List.prefix_or_prefix_of_prefix (List.prefix_append p.emitted _)
    (hwhole ▸ List.prefix_append _ _) with hfront | ⟨extra, hextra⟩
  · exact hfront
  · -- Anything more would be of a later command.
    have hnil : extra = [] := by
      refine List.eq_nil_iff_forall_not_mem.mpr fun e he ↦ ?_
      rw [← hextra, List.append_assoc] at hwhole
      have hback := List.append_cancel_left hwhole
      have hmem : e ∈ (p.applied.drop n).flatMap Applied.emissions :=
        hback ▸ List.mem_append_left _ he
      obtain ⟨a, ha, hea⟩ := List.mem_flatMap.mp hmem
      have hlow := (hnum.2.le_of_mem (List.mem_map_of_mem ha)).1
      have hhigh := hwithin e (hextra ▸ List.mem_append_right _ he)
      rw [Pending.seq_of_mem hea, Opened.Within] at hhigh
      rw [List.length_map, List.length_take_of_le hlt.le] at hlow
      exact absurd hhigh (not_lt.mpr hlow)
    refine ⟨[], ?_⟩
    rw [List.append_nil, ← hextra, hnil, List.append_nil]

theorem Pipeline.Sound.run (h : p.Sound o mode) (hbase : fullReplay config base = some o.state) :
    ∃ tr : List Transition, tr.map Runs.Transition.input = base ∧ (play config base).1 = tr ∧
      DutchAuction.Run config (tr ++ p.applied.map Applied.transition) p.engine.state := by
  obtain ⟨tr, hrun, hinputs⟩ := applyAll_run hbase
  refine ⟨tr, hinputs, ?_, hrun.append h.history⟩
  rw [play, ← hinputs, hrun.play_eq]

theorem Pipeline.Sound.post (h : p.Sound o mode) (hbase : fullReplay config base = some o.state)
    {k : ℕ} {a : Applied} (ha : p.applied[k]? = some a) :
    a.transition.post.lastSeq = some a.record.seq ∧ a.record.seq.val = o.nextSeq.val + k ∧
      fullReplay config (base ++ p.records.take (k + 1)) = some a.transition.post := by
  have hlt := (List.getElem?_eq_some_iff.mp ha).1
  have htake : p.applied.take (k + 1) = p.applied.take k ++ [a] := by
    rw [List.take_add_one, ha]
    rfl
  obtain ⟨tr, hinputs, -, hrun⟩ := h.run hbase
  have hstep := (hrun.split (List.mem_append_right _ (List.mem_map_of_mem
    (List.mem_of_getElem? ha)))).2
  have hnum := h.numbered
  rw [Pipeline.records, ← List.take_append_drop (k + 1) p.applied, htake, List.map_append,
    List.map_append, NumberedFrom.append, NumberedFrom.append] at hnum
  have hseq : a.record.seq.val = o.nextSeq.val + (List.map Applied.record _).length :=
    hnum.1.2.1
  rw [List.length_map, List.length_take_of_le hlt.le] at hseq
  rw [← List.take_append_drop (k + 1) p.applied, htake, List.map_append, List.map_append,
    ← List.append_assoc, ← List.append_assoc] at hrun
  obtain ⟨s, hfront, -⟩ := hrun.unappend
  obtain rfl := hfront.last
  have hall := run_applyAll hfront
  refine ⟨step_lastSeq hstep, hseq, ?_⟩
  rw [Pipeline.records, ← List.map_take, htake, List.map_append, ← List.append_assoc]
  rw [List.map_append, List.map_append, hinputs, List.map_map] at hall
  exact hall

/-- **What a life has told** is what its log says, as far as the first `n` records, if none of it is
numbered above them. -/
theorem Pipeline.Sound.told_take (h : p.Sound o mode)
    (hbase : fullReplay config base = some o.state) {n : ℕ}
    (hwithin : ∀ e ∈ p.emitted, o.Within n e.seq) {before : List Emission}
    (hbefore : Told config base before) :
    Told config (base ++ p.records.take n) (before ++ p.emitted) := by
  have hsaid : ∀ l : List Applied, ((l.flatMap Applied.emissions).map Emission.said).Sublist
      ((l.map Applied.transition).flatMap disclosed) := by
    intro l
    induction l with
    | nil => exact List.Sublist.refl _
    | cons a l ih =>
      rw [List.flatMap_cons, List.map_append, List.map_cons, List.flatMap_cons]
      exact a.said_sublist.append ih
  have hrecords : ((p.applied.take n).map Applied.transition).map Runs.Transition.input =
      p.records.take n := by
    rw [List.map_map, List.map_take]
    rfl
  obtain ⟨tr, hinputs, hplay, hrun⟩ := h.run hbase
  rw [← List.take_append_drop n p.applied, List.map_append, ← List.append_assoc] at hrun
  obtain ⟨s, hfront, -⟩ := hrun.unappend
  have hplayed := hfront.play_eq
  rw [List.map_append, hinputs, hrecords] at hplayed
  rw [Told, hplay] at hbefore
  rw [Told, play, hplayed, List.map_append, List.flatMap_append]
  exact hbefore.append (((h.emitted_take hwithin).sublist.map _).trans (hsaid _))

theorem Pipeline.Sound.told (h : p.Sound o mode) (hbase : fullReplay config base = some o.state)
    {before : List Emission} (hbefore : Told config base before) :
    Told config (base ++ p.commit.synced) (before ++ p.emitted) := by
  rw [List.prefix_iff_eq_take.mp h.synced_prefix]
  exact h.told_take hbase h.emitted hbefore

/-! ## What a step of a life does to the log

A step of the pipeline is at most one step of the writer on the files: it appends a record, syncs,
or leaves them alone. -/

/-- What the writer does to the files in one step. -/
inductive CommitThread.Touches (codec : Codec) (c c' : CommitThread) : Prop
  /-- Nothing; it may have let go of the log. -/
  | keeps (hdir : c'.dir = c.dir) (happended : c'.appended = c.appended)
      (hsynced : c'.synced = c.synced) (hplatter : ∀ n, c.platter n c' = n)
      (hwal : c'.writer.wal? = c.writer.wal? ∨ c'.writer.wal? = none)
  | appends {wal wal' : Wal} {r : LogRecord} {rest : List LogRecord} {after : After} {dir : Dir}
      (hwriter : c.writer = .writing wal (r :: rest) after)
      (happend : wal.append codec c.dir r = .ok (wal', dir))
      (heq : c' = { c with
        dir := dir
        appended := c.appended ++ [r]
        writer := .writing wal' rest after })
  | syncs {wal : Wal} {after : After} (hwriter : c.writer = .writing wal [] after)
      (heq : c' = { c with
        dir := (wal.sync c.dir).2
        synced := c.appended
        writer := .publishing (wal.sync c.dir).1 (wal.sync c.dir).1.durable after })

namespace CommitThread

variable {c c' : CommitThread}

theorem Touches.refl (c : CommitThread) : c.Touches codec c := by
  refine keeps rfl rfl rfl (fun n ↦ ?_) (Or.inl rfl)
  rw [platter]
  split
  · rename_i h h'
    cases h.symm.trans h'
  · rename_i h h'
    cases h.symm.trans h'
    rw [if_pos rfl]
  · rename_i h h'
    cases h.symm.trans h'
  · rfl

theorem platter_eq (h : ∀ wal rest after, c.writer ≠ .writing wal rest after) (c' : CommitThread)
    (n : ℕ) : c.platter n c' = n := by
  rw [platter]
  split
  · rename_i hw hw'
    exact absurd hw (h _ _ _)
  · rename_i hw hw'
    exact absurd hw (h _ _ _)
  · rename_i hw hw'
    exact absurd hw (h _ _ _)
  · rfl

theorem poll_touches (hpoll : c.poll options.wal = some c') : c.Touches codec c' := by
  have hplatter : ∀ n, c.platter n c' = n := by
    refine platter_eq (fun wal rest after hw ↦ ?_) c'
    rw [poll, hw] at hpoll
    cases hpoll
  rw [poll] at hpoll
  split at hpoll
  case h_4 wal batch hw =>
    by_cases hroom : batch.length < options.wal.maxBatch
    · rw [if_pos hroom] at hpoll
      split at hpoll
      · cases hpoll
        exact .keeps rfl rfl rfl hplatter (Or.inl (by rw [hw]; rfl))
      · cases hpoll
        exact .keeps rfl rfl rfl hplatter (Or.inl (by rw [hw]; rfl))
      · split_ifs at hpoll
        cases hpoll
        exact .keeps rfl rfl rfl hplatter (Or.inl (by rw [hw]; rfl))
    · rw [if_neg hroom] at hpoll
      cases hpoll
      exact .keeps rfl rfl rfl hplatter (Or.inl (by rw [hw]; rfl))
  case h_3 wal hw hqueue =>
    split_ifs at hpoll
    cases hpoll
    exact .keeps rfl rfl rfl hplatter (Or.inl (by rw [hw]; rfl))
  case h_7 wal hw hqueue =>
    cases hpoll
    exact .keeps rfl rfl rfl hplatter (Or.inr rfl)
  case h_9 => cases hpoll
  all_goals
    cases hpoll
    refine .keeps rfl rfl rfl hplatter (Or.inl ?_)
    simp only [Writer.wal?, *]

theorem advance_touches {move : Move} (hok : ∀ fault, move ≠ .write (some fault))
    (hadvance : c.advance codec options.wal move = some c') : c.Touches codec c' := by
  cases move with
  | poll => exact poll_touches hadvance
  | lapse =>
    rw [advance, lapse] at hadvance
    split at hadvance
    · rename_i wal batch hw hqueue
      cases hadvance
      refine .keeps rfl rfl rfl (platter_eq (fun _ _ _ h ↦ ?_) _) (Or.inl (by rw [hw]; rfl))
      cases hw.symm.trans h
    · cases hadvance
  | write fault =>
    cases fault with
    | some fault => exact absurd rfl (hok fault)
    | none =>
      rw [advance, write] at hadvance
      split at hadvance
      · rename_i wal rest after hw
        split at hadvance
        · contradiction
        · rename_i r rest hfault
          split_ifs at hadvance
          split at hadvance
          · rename_i wal' dir happend
            cases hadvance
            exact .appends hw happend rfl
          · rename_i e happend
            cases hadvance
            refine .keeps rfl rfl rfl (fun n ↦ ?_) (Or.inr rfl)
            simp only [platter, hw]
        · cases hadvance
          exact .syncs hw rfl
      · cases hadvance
  | publish =>
    rw [advance, publish] at hadvance
    split at hadvance
    · rename_i wal durable after hw
      cases hadvance
      refine .keeps rfl rfl rfl (platter_eq (fun _ _ _ h ↦ ?_) _) ?_
      · cases hw.symm.trans h
      · rw [hw]
        cases after with
        | receive => exact Or.inl rfl
        | drain => exact Or.inl rfl
        | close => exact Or.inr rfl
    · cases hadvance
  | close =>
    rw [advance, close] at hadvance
    split at hadvance
    · rename_i reason hw
      cases hadvance
      refine .keeps rfl rfl rfl (platter_eq (fun _ _ _ h ↦ ?_) _) (Or.inr rfl)
      cases hw.symm.trans h
    · cases hadvance
  | «return» =>
    rw [advance, CommitThread.return] at hadvance
    split at hadvance
    · rename_i hw
      cases hadvance
      refine .keeps rfl rfl rfl (platter_eq (fun _ _ _ h ↦ ?_) _) (Or.inr rfl)
      cases hw.symm.trans h
    · cases hadvance

theorem send_touches {msg : Msg} {sent : Bool} (hsend : c.send options.wal msg = some (c', sent)) :
    c.Touches codec c' := by
  obtain ⟨-, -, rfl⟩ | ⟨-, -, rfl⟩ := send_cases hsend
  · cases (Touches.refl c : c.Touches codec c) with
    | keeps _ _ _ hplatter hwal => exact .keeps rfl rfl rfl hplatter hwal
    | appends hwriter happend heq =>
      have hlen := congrArg (List.length ∘ CommitThread.appended) heq
      simp at hlen
    | syncs hwriter heq =>
      have hsame := hwriter.symm.trans (congrArg CommitThread.writer heq)
      cases hsame
  · exact Touches.refl _

end CommitThread

theorem Pipeline.step_touches {move : Pipeline.Move} {out : Option Pipeline.Output}
    (hok : ∀ fault, move ≠ .commit (.write (some fault)))
    (hstep : p.step codec options move = some (p', out)) : p.commit.Touches codec p'.commit := by
  cases step_steps hstep with
  | logged a commit ha hsend => exact CommitThread.send_touches hsend
  | committed move commit hadvance =>
    exact CommitThread.advance_touches (fun fault hmove ↦ hok fault (congrArg _ hmove)) hadvance
  | stoppedCommit commit sent hsend => exact CommitThread.send_touches hsend
  | stoppedLog commit sent hshutdown hsend => exact CommitThread.send_touches hsend
  | _ => exact CommitThread.Touches.refl _

/-! ## Every move keeps it

A life makes a step, a state is saved, the process dies, or the directory is opened again. What is
synced at a death is in the log that the next life reads. -/

theorem CommitThread.Sound.elsewhere {c : CommitThread} (h : c.Sound) (dir : Dir) :
    CommitThread.Sound { c with dir := dir } where
  numbered := h.numbered
  synced := h.synced
  stage := by
    obtain ⟨queue, hungUp, writer, watermark, old, held, submitted, appended, synced⟩ := c
    have hwrites : ∀ {wal inHand}, CommitThread.Writes
        ⟨queue, hungUp, writer, watermark, old, held, submitted, appended, synced⟩ wal inHand →
        CommitThread.Writes
          ⟨queue, hungUp, writer, watermark, dir, held, submitted, appended, synced⟩ wal inHand :=
      fun hw ↦ ⟨hw.appended, hw.durable, hw.order⟩
    have hstage := h.stage
    cases writer with
    | receiving wal => exact hstage.imp hwrites fun hidle ↦ ⟨hidle.mark, hidle.synced⟩
    | gathering wal batch => exact hstage.imp hwrites fun hidle ↦ ⟨hidle.mark, hidle.synced⟩
    | draining wal leftovers => exact hstage.imp hwrites fun hidle ↦ ⟨hidle.mark, hidle.synced⟩
    | writing wal rest after => exact hstage.imp_left hwrites
    | publishing wal durable after => exact hstage.imp_left hwrites
    | closing reason => cases reason <;> exact hstage
    | returning =>
      obtain ⟨reason, hmark, hleaves⟩ := hstage
      refine ⟨reason, hmark, ?_⟩
      cases reason <;> exact hleaves
    | ended =>
      obtain ⟨reason, hmark, hleaves⟩ := hstage
      refine ⟨reason, hmark, ?_⟩
      cases reason <;> exact hleaves

theorem History.Valid.shut {h : History} (hv : h.Valid codec config) :
    History.Valid codec config { h with wal := none } where
  manifest := hv.manifest
  files := by
    refine hv.files.imp (fun hfresh ↦ { hfresh with wal := rfl }) ?_
    rintro ⟨log, file, hs⟩
    exact ⟨log, file, hs.shut hs.holds hs.written hs.platter⟩

theorem History.Valid.snaps {h : History} (hv : h.Valid codec config) (snaps : Snapshots) :
    History.Valid codec config { h with dir := { h.dir with snaps := snaps } } where
  manifest := hv.manifest
  files := by
    refine hv.files.imp (fun hfresh ↦ { hfresh with }) ?_
    rintro ⟨log, file, hs⟩
    exact ⟨log, file, { hs with holds := ⟨hs.holds.entries⟩ }⟩

namespace Lives

variable {l l' : Lives} {before : List Emission}

theorem Lively.numbered (h : Lively config mode p base appended synced before)
    (hbase : NumberedFrom 0 base) :
    NumberedFrom 0 (base ++ p.commit.appended) ∧
      (base ++ p.commit.appended).length < 2 ^ 64 := by
  obtain ⟨o, hp, -, hnext⟩ := h.sound
  have hfront : p.commit.appended <+: p.records :=
    hp.commit.appended_prefix.trans ⟨_, hp.submitted.symm⟩
  have hnum := hp.numbered
  obtain ⟨rest, hrest⟩ := hfront
  rw [← hrest, NumberedFrom.append, hnext] at hnum
  refine ⟨NumberedFrom.append.mpr ⟨hbase, by rw [Nat.zero_add]; exact hnum.1⟩, ?_⟩
  have hlast := p.engine.nextSeq.val_lt
  have hlen := congrArg List.length hrest
  rw [hp.next, hnext] at hlast
  rw [List.length_append, Pipeline.records, List.length_map] at hlen
  rw [List.length_append]
  omega

theorem Lively.told (h : Lively config mode p base appended synced before) :
    Told config synced (before ++ p.emitted) := by
  obtain ⟨o, hp, hbase, -⟩ := h.sound
  cases h.covers with
  | fresh hnone hfront htold =>
    have hemitted := hp.emitted_take hp.emitted
    rw [hnone, List.length_nil, List.take_zero, List.flatMap_nil, List.prefix_nil] at hemitted
    rwa [hemitted, List.append_nil]
  | own hsynced htold =>
    rw [hsynced]
    exact hp.told hbase htold

theorem Covers.mono {c c' : CommitThread} (h : Covers config base synced c before)
    (hsynced : c'.synced = c.synced) : Covers config base synced c' before := by
  cases h with
  | fresh hnone hfront htold => exact .fresh (hsynced.trans hnone) hfront htold
  | own hall htold => exact .own (by rw [hsynced]; exact hall) htold

theorem Covers.opened {c : CommitThread} (h : Covers config base synced c before) :
    Told config base before := by
  cases h with
  | fresh hnone hfront htold => exact htold.mono hfront
  | own hall htold => exact htold

namespace Sound

variable (h : l.Sound codec config options.replication appended synced)
include h

theorem manifest_ne (hphase : l.phase = .up p) : l.dir.manifest ≠ none := by
  intro hnone
  obtain ⟨-, dir, hdown⟩ := h.founded hnone
  cases hphase.symm.trans hdown

theorem touched (hc : codec.Lawful) (hphase : l.phase = .up p)
    (htouches : p.commit.Touches codec p'.commit)
    (hfew : p'.commit.dir.segs.entries.length ≤ SEGMENTS)
    (hlively : Lively config options.replication p base appended synced l.before) :
    ∃ synced', History.Valid codec config ⟨p'.commit.dir, p'.commit.writer.wal?,
        base ++ p'.commit.appended, synced', p.commit.platter l.platter p'.commit⟩ ∧
      p'.commit.dir.manifest = p.commit.dir.manifest ∧
      p'.commit.dir.snaps = p.commit.dir.snaps ∧ synced <+: synced' ∧
      synced' <+: base ++ p'.commit.appended ∧
      Covers config base synced' p'.commit l.before := by
  obtain ⟨phase, platter, before⟩ := l
  obtain rfl : phase = .up p := hphase
  have hvalid : History.Valid codec config
      ⟨p.commit.dir, p.commit.writer.wal?, appended, synced, platter⟩ := h.valid
  have hfront := h.front
  rw [hlively.appended] at hvalid hfront
  cases htouches with
  | keeps hdir happended hsynced hplatter hwal =>
    refine ⟨synced, ?_, by rw [hdir], by rw [hdir], List.prefix_rfl, ?_,
      hlively.covers.mono hsynced⟩
    · rw [hdir, happended, hplatter]
      rcases hwal with hwal | hwal
      · rwa [hwal]
      · rw [hwal]
        exact hvalid.shut
    · rwa [happended]
  | @appends wal wal' r rest after dir hwriter happend heq =>
    rw [heq] at hfew ⊢
    have hwal : p.commit.writer.wal? = some wal := by rw [hwriter]; rfl
    have hstep : History.step codec config
        ⟨p.commit.dir, some wal, base ++ p.commit.appended, synced, platter⟩ (.append r) =
        some (⟨dir, some wal', (base ++ p.commit.appended) ++ [r], synced,
          if wal'.activeIndex = wal.activeIndex then platter else 0⟩, .ok ()) := by
      rw [History.step, Option.map_some, happend]
    rw [hwal] at hvalid
    refine ⟨synced, ?_, Wal.append_manifest happend, Wal.append_snaps happend, List.prefix_rfl,
      hfront.trans ?_, hlively.covers.mono rfl⟩
    · have hnext := hvalid.step hc hstep hfew
      rw [CommitThread.platter, hwriter]
      dsimp only
      rwa [← List.append_assoc]
    · show base ++ p.commit.appended <+: base ++ (p.commit.appended ++ [r])
      exact (List.prefix_append_right_inj _).mpr (List.prefix_append _ _)
  | @syncs wal after hwriter heq =>
    rw [heq] at hfew ⊢
    have hwal : p.commit.writer.wal? = some wal := by rw [hwriter]; rfl
    rw [hwal] at hvalid
    have hstep : History.step codec config
        ⟨p.commit.dir, some wal, base ++ p.commit.appended, synced, platter⟩ .sync =
        some (⟨(wal.sync p.commit.dir).2, some (wal.sync p.commit.dir).1,
          base ++ p.commit.appended, base ++ p.commit.appended,
          (((wal.sync p.commit.dir).2.segs.get? (wal.sync p.commit.dir).1.activeIndex).getD
            []).length⟩, .ok ()) := rfl
    have hnext := hvalid.step hc hstep hfew
    refine ⟨base ++ p.commit.appended, ?_, rfl, rfl, hfront, List.prefix_rfl,
      .own rfl hlively.covers.opened⟩
    rw [CommitThread.platter, hwriter]
    exact hnext

/-- **A process makes a move.** -/
theorem live (hc : codec.Lawful) (hphase : l.phase = .up p) {move : Pipeline.Move}
    {out : Option Pipeline.Output} (hok : ∀ fault, move ≠ .commit (.write (some fault)))
    (hstep : p.step codec options move = some (p', out))
    (hfew : p'.commit.dir.segs.entries.length ≤ SEGMENTS) :
    ∃ appended' synced', Sound codec config options.replication
      ⟨.up p', p.commit.platter l.platter p'.commit, l.before⟩ appended' synced' := by
  obtain ⟨base, hlively⟩ := h.up p hphase
  obtain ⟨o, hp, hbase, hnext⟩ := hlively.sound
  obtain ⟨synced', hvalid, hmanifest, hsnaps, hmore, hfront, hcovers⟩ :=
    h.touched hc hphase (Pipeline.step_touches hok hstep) hfew hlively
  have hlively' : Lively config options.replication p' base (base ++ p'.commit.appended) synced'
      l.before := ⟨⟨o, hp.step hstep, hbase, hnext⟩, rfl, hcovers⟩
  have hnum : NumberedFrom 0 base := by
    have hnumbered := h.numbered
    rw [hlively.appended, NumberedFrom.append] at hnumbered
    exact hnumbered.1
  have hdir : l.dir = p.commit.dir := by rw [dir, hphase]
  refine ⟨base ++ p'.commit.appended, synced', hvalid, fun hnone ↦ ?_, (hlively'.numbered hnum).1,
    (hlively'.numbered hnum).2, hfront, ?_, fun _ hdown ↦ Phase.noConfusion hdown, fun q hq ↦ ?_⟩
  · have hne := h.manifest_ne hphase
    rw [hdir] at hne
    exact absurd (hmanifest.symm.trans hnone) hne
  · show p'.commit.dir.snaps.Of config synced'
    rw [hsnaps]
    exact (hdir ▸ h.snapshots).mono hmore
  · cases hq
    exact ⟨base, hlively'⟩

/-- **A state is saved.** -/
theorem save (hphase : l.phase = .up p) {k n : ℕ} (hk : k < p.commit.synced.length) {a : Applied}
    (ha : p.applied[k]? = some a) :
    Sound codec config options.replication { l with phase := .up { p with commit := { p.commit with
      dir := saved p.commit.dir a.transition.post n } } } appended synced := by
  obtain ⟨base, hlively⟩ := h.up p hphase
  obtain ⟨o, hp, hbase, hnext⟩ := hlively.sound
  obtain ⟨phase, platter, before⟩ := l
  obtain rfl : phase = .up p := hphase
  have hsynced : synced = base ++ p.commit.synced := by
    cases hlively.covers with
    | fresh hnone hfront htold =>
      rw [hnone] at hk
      exact absurd hk (Nat.not_lt_zero k)
    | own hsynced htold => exact hsynced
  obtain ⟨hlast, hseq, hstate⟩ := hp.post hbase ha
  rw [hnext] at hseq
  refine ⟨History.Valid.snaps h.valid _, fun hnone ↦ absurd hnone (h.manifest_ne rfl), h.numbered,
    h.bounded, h.front, ?_, fun _ hdown ↦ Phase.noConfusion hdown, fun q hq ↦ ?_⟩
  · refine Snapshots.Of.pruneSome (Snapshots.Of.write h.snapshots hlast ?_ ?_) 2 n
    · rw [hseq, hsynced, List.length_append]
      omega
    · have hfront : synced.take (base.length + k + 1) = base ++ p.records.take (k + 1) := by
        obtain ⟨rest, hrest⟩ := hp.synced_prefix
        rw [hsynced, Nat.add_assoc, List.take_length_add_append, ← hrest,
          List.take_append_of_le_length hk]
      rw [hseq, hfront]
      exact hstate
  · cases hq
    exact ⟨base, ⟨o, { hp with commit := hp.commit.elsewhere _ }, hbase, hnext⟩,
      hlively.appended, hlively.covers.mono rfl⟩

/-- **The process dies.** -/
theorem crash (hc : codec.Lawful) {len : ℕ} (hlen : l.platter ≤ len)
    (hfew : (History.cut (l.history [] []).closed len).segs.entries.length ≤ SEGMENTS) :
    Sound codec config options.replication
      ⟨.down (History.cut (l.history [] []).closed len), l.platter, l.told⟩ appended synced := by
  have hstep : History.step codec config (l.history appended synced) (.crash len) =
      some (⟨History.cut (l.history [] []).closed len, none, appended, synced, l.platter⟩,
        .ok ()) := if_pos hlen
  have hrest : (History.cut (l.history [] []).closed len).manifest = l.dir.manifest ∧
      (History.cut (l.history [] []).closed len).snaps = l.dir.snaps := by
    rw [History.cut, History.closed]
    split
    · split
      · exact ⟨rfl, rfl⟩
      · exact ⟨rfl, rfl⟩
    · split
      · exact ⟨rfl, rfl⟩
      · exact ⟨rfl, rfl⟩
  refine ⟨h.valid.step hc hstep hfew, fun hnone ↦ ⟨?_, _, rfl⟩, h.numbered, h.bounded, h.front, ?_,
    fun _ _ ↦ ?_, fun q hq ↦ Phase.noConfusion hq⟩
  · obtain ⟨hempty, dir, hdown⟩ := h.founded (hrest.1.symm.trans hnone)
    obtain ⟨phase, platter, before⟩ := l
    obtain rfl : phase = .down dir := hdown
    have hnothing : History.cut dir len = dir := by
      rw [History.cut, Dir.segments, show dir.segs.entries = [] from hempty]
      rfl
    show (History.cut dir len).segs.entries = []
    rw [hnothing]
    exact hempty
  · show (History.cut (l.history [] []).closed len).snaps.Of config synced
    rw [hrest.2]
    exact h.snapshots
  · show Told config synced l.told
    rw [told]
    cases hphase : l.phase with
    | down dir => exact h.down dir hphase
    | up p =>
      obtain ⟨base, hlively⟩ := h.up p hphase
      exact hlively.told

/-- **The directory can always be opened**, and the auction resumes where the log that is there
leads. -/
theorem opens (hc : codec.Lawful) {dir : Dir} (hphase : l.phase = .down dir) (segmentBytes : U64) :
    ∃ o records, openInner codec config segmentBytes dir = some (.ok o) ∧
      codec.readAll dir = .ok records ∧ synced <+: records ∧ records <+: appended ∧
      fullReplay config records = some o.state ∧ o.nextSeq.val = records.length ∧ o.Aligned ∧
      o.dir.manifest = some (.ok config) ∧ o.dir.snaps = dir.snaps ∧
      History.Valid codec config ⟨o.dir, some o.wal, records, synced, l.platter⟩ := by
  obtain ⟨phase, platter, before⟩ := l
  obtain rfl : phase = .down dir := hphase
  have hv : History.Valid codec config ⟨dir, none, appended, synced, platter⟩ := h.valid
  obtain ⟨records, hread, hfront, hsynced⟩ := hv.readAll hc
  have hread : codec.readAll dir = .ok records := hread
  have hnumbered := h.numbered
  obtain ⟨rest, hrest⟩ := hfront
  have hnum : NumberedFrom 0 records := by
    have happended : records ++ rest = appended := hrest
    rw [← happended, NumberedFrom.append] at hnumbered
    exact hnumbered.1
  have hlen : records.length < 2 ^ 64 := by
    have happended : records ++ rest = appended := hrest
    have hbound := h.bounded
    rw [← happended, List.length_append] at hbound
    omega
  -- The log.
  obtain ⟨w, dir', hopen, hmanifest', hvalid⟩ : ∃ w dir',
      Wal.open codec config segmentBytes dir = (.ok w, dir') ∧
      dir'.manifest = some (.ok config) ∧
      History.Valid codec config ⟨dir', some w, records, synced, platter⟩ := by
    obtain ⟨h', log, file, hstep, hmanifest', hs, -⟩ := hv.open hc rfl segmentBytes
    rw [History.step] at hstep
    dsimp only at hstep
    split at hstep
    · rename_i w dir' hopen
      obtain ⟨rfl, -⟩ := Prod.mk.inj (Option.some.inj hstep)
      rw [hread] at hs
      exact ⟨w, dir', hopen, hmanifest', Or.inr hmanifest', Or.inr ⟨log, file, hs⟩⟩
    · cases congrArg (Option.map Prod.snd) hstep
  -- The auction.
  have hresumes : ∃ state nextSeq, openInner codec config segmentBytes dir =
      some (openInner.resume codec config segmentBytes dir state nextSeq) ∧
      fullReplay config records = some state ∧ nextSeq.val = records.length := by
    rcases hv.manifest with hnone | hsome
    · have hnil : records = [] := by
        have hempty : dir.segs.entries = [] := (h.founded hnone).1
        rw [Codec.readAll, Dir.segments, hempty] at hread
        exact (Except.ok.inj hread).symm
      have hrecover : codec.recover dir = some (.error (.noManifest .dir)) := by
        rw [Codec.recover, Dir.readManifest, show dir.manifest = none from hnone]
      refine ⟨AuctionState.new config, Seq.START, ?_, ?_, ?_⟩
      · rw [openInner, hrecover, Option.map_some]
      · rw [hnil]
        rfl
      · rw [hnil]
        rfl
    · have hsnapshot : ∀ s ∈ dir.snaps.latestUsable, EndsBefore records s ∨
          s.seq.val < records.length ∧
            fullReplay config (records.take (s.seq.val + 1)) = some s.state := fun s hs ↦
        Or.inr ((Snapshots.Of.mono h.snapshots hsynced).latestUsable hs).2
      have hn : records.length = (⟨records.length, hlen⟩ : U64).val := rfl
      obtain ⟨r, hrecover, hreplay, hnext, -⟩ := recoverFrom_honest hnum hn hsnapshot
      have hconfig : r.state.config = config := by
        obtain ⟨tr, hrun, -⟩ := applyAll_run hreplay
        exact run_config hrun
      refine ⟨r.state, r.nextSeq, ?_, hreplay, by rw [hnext]⟩
      rw [openInner, Codec.recover_eq hsome hread, hrecover, Option.map_some]
      dsimp only
      rw [if_pos hconfig]
  obtain ⟨state, nextSeq, hinner, hreplay, hnext⟩ := hresumes
  have hresume : openInner.resume codec config segmentBytes dir state nextSeq =
      .ok ⟨state, nextSeq, w, dir'⟩ := by
    rw [openInner.resume, hopen]
  rw [hresume] at hinner
  refine ⟨_, records, hinner, hread, hsynced, ⟨rest, hrest⟩, hreplay, hnext,
    openInner_aligned hinner fun hnone ↦ ?_, hmanifest', Wal.open_snaps hopen, hvalid⟩
  rw [Dir.segments, show dir.segs.entries = [] from (h.founded hnone).1]
  rfl

/-- **The auction is opened.** -/
theorem opened (hc : codec.Lawful) {dir : Dir} (hphase : l.phase = .down dir) {segmentBytes : U64}
    {o : Opened} (hopen : openInner codec config segmentBytes dir = some (.ok o))
    (replicated : Bool) (instant : Instant) :
    ∃ appended', Sound codec config options.replication
      { l with phase := .up (Pipeline.start o replicated instant) } appended' synced := by
  obtain ⟨o', records, hopen', -, hsynced, hfront, hreplay, hnext, haligned, hmanifest, hsnaps,
    hvalid⟩ := h.opens hc hphase segmentBytes
  obtain rfl : o = o' := Except.ok.inj (Option.some.inj (hopen.symm.trans hopen'))
  have hdir : l.dir = dir := by rw [Lives.dir, hphase]
  have hnum := h.numbered
  have hbound := h.bounded
  obtain ⟨rest, hrest⟩ := hfront
  rw [← hrest] at hnum hbound
  rw [List.length_append] at hbound
  refine ⟨records, hvalid, fun hnone ↦ ?_, (NumberedFrom.append.mp hnum).1, by omega, hsynced, ?_,
    fun _ hdown ↦ Phase.noConfusion hdown, fun q hq ↦ ?_⟩
  · cases hmanifest.symm.trans hnone
  · show o.dir.snaps.Of config synced
    rw [hsnaps, ← hdir]
    exact h.snapshots
  · cases hq
    exact ⟨records, ⟨o, Pipeline.start_sound haligned replicated instant, hreplay, hnext⟩,
      (List.append_nil _).symm, .fresh rfl hsynced (h.down dir hphase)⟩

/-- **One move** keeps it. -/
theorem step (hc : codec.Lawful) {move : Move} {out : Option Pipeline.Output}
    (hstep : l.step codec config options move = some (l', out)) (hcalm : move.calm l = true)
    (hfew : l'.dir.segs.entries.length ≤ SEGMENTS) :
    ∃ appended' synced', l'.Sound codec config options.replication appended' synced' := by
  cases move with
  | «open» segmentBytes replicated instant =>
    rw [Lives.step] at hstep
    split at hstep
    · cases hstep
    · rename_i dir hphase
      split at hstep
      · rename_i o hopen
        cases hstep
        obtain ⟨appended', hsound⟩ := h.opened hc hphase hopen replicated instant
        exact ⟨appended', synced, hsound⟩
      · cases hstep
  | live move =>
    rw [Lives.step] at hstep
    split at hstep
    · cases hstep
    · rename_i p hphase
      obtain ⟨⟨p', out'⟩, hmove, heq⟩ := Option.map_eq_some_iff.mp hstep
      cases heq
      refine h.live hc hphase (fun fault hfails ↦ ?_) hmove hfew
      rw [hfails] at hcalm
      cases hcalm
  | save k n =>
    rw [Lives.step] at hstep
    split at hstep
    · cases hstep
    · rename_i p hphase
      obtain ⟨a, ha, heq⟩ := Option.map_eq_some_iff.mp hstep
      cases heq
      rw [Move.calm, hphase] at hcalm
      exact ⟨appended, synced, h.save hphase (of_decide_eq_true hcalm) ha⟩
  | crash len =>
    rw [Lives.step] at hstep
    split_ifs at hstep with hlen
    cases hstep
    exact ⟨appended, synced, h.crash hc hlen hfew⟩

end Sound

theorem new_sound (codec : Codec) (config : AuctionConfig) (mode : ReplicationMode) :
    new.Sound codec config mode [] [] where
  valid := History.new_valid codec config
  founded _ := ⟨rfl, _, rfl⟩
  numbered := trivial
  bounded := Nat.two_pow_pos 64
  front := List.prefix_rfl
  snapshots _ _ hmem := absurd hmem List.not_mem_nil
  down _ _ := List.Sublist.refl _
  up _ h := Phase.noConfusion h

/-! ## One history

The log only grows by what is appended to it, and loses no more than what nobody was told. So
everything that was told is said by the replay of the log as it is now. -/

theorem told_step {move : Move} {out : Option Pipeline.Output}
    (hstep : l.step codec config options move = some (l', out)) : l.told <+: l'.told := by
  cases move with
  | «open» segmentBytes replicated instant =>
    rw [step] at hstep
    split at hstep
    · cases hstep
    · rename_i dir hphase
      split at hstep
      · cases hstep
        rw [told, hphase]
        exact List.prefix_append _ _
      · cases hstep
  | live move =>
    rw [step] at hstep
    split at hstep
    · cases hstep
    · rename_i p hphase
      obtain ⟨⟨p', out'⟩, hmove, heq⟩ := Option.map_eq_some_iff.mp hstep
      cases heq
      rw [told, hphase]
      show l.before ++ p.emitted <+: l.before ++ p'.emitted
      rw [Pipeline.step_emitted hmove]
      exact (List.prefix_append_right_inj _).mpr (List.prefix_append _ _)
  | save k n =>
    rw [step] at hstep
    split at hstep
    · cases hstep
    · rename_i p hphase
      obtain ⟨a, -, heq⟩ := Option.map_eq_some_iff.mp hstep
      cases heq
      rw [told, hphase]
      exact List.prefix_rfl
  | crash len =>
    rw [step] at hstep
    split_ifs at hstep
    cases hstep
    exact List.prefix_rfl

theorem run_sound (hc : codec.Lawful)
    {tr : List (Runs.Transition Lives Move (Option Pipeline.Output))}
    (hrun : Run codec config options tr l) (hcalm : ∀ t ∈ tr, Calm t) :
    (∃ appended synced, l.Sound codec config options.replication appended synced) ∧
      ∀ t ∈ tr, t.post.told <+: l.told := by
  obtain ⟨hsound, hpast⟩ := hrun.history_of
    (P := fun l : Lives ↦ ∃ appended synced,
      l.Sound codec config options.replication appended synced)
    (R := fun l l' : Lives ↦ l.told <+: l'.told)
    (C := Calm)
    (fun _ ↦ List.prefix_rfl) (fun _ _ _ ↦ List.IsPrefix.trans)
    ⟨[], [], new_sound codec config options.replication⟩
    (fun _ _ _ _ hs hstep hcalm ↦ by
      obtain ⟨appended, synced, hs⟩ := hs
      exact ⟨hs.step hc hstep hcalm.1 hcalm.2, told_step hstep⟩) hcalm
  exact ⟨hsound, fun t ht ↦ (hpast t ht).2.2⟩

/-- There is one log, and its replay says everything that was told in any life. -/
structure OneHistory (codec : Codec) (config : AuctionConfig) (l : Lives) : Prop where
  /-- While no process runs, it is the one that is read back, and whoever opens the directory goes
  on from where it leads. -/
  down : ∀ dir, l.phase = .down dir → ∃ records, codec.readAll dir = .ok records ∧
    Told config records l.told ∧
    ∀ segmentBytes, ∃ o, openInner codec config segmentBytes dir = some (.ok o) ∧
      fullReplay config records = some o.state ∧ o.nextSeq.val = records.length
  /-- While one runs, it is what was read back and what is synced since. -/
  up : ∀ p, l.phase = .up p → ∃ base,
    fullReplay config (base ++ p.records) = some p.engine.state ∧
      Told config (base ++ p.commit.synced) l.told

theorem Sound.oneHistory (hc : codec.Lawful)
    (h : l.Sound codec config options.replication appended synced) :
    OneHistory codec config l where
  down dir hphase := by
    obtain ⟨-, records, -, hread, hsynced, -⟩ := h.opens hc hphase 0
    refine ⟨records, hread, ?_, fun segmentBytes ↦ ?_⟩
    · rw [told, hphase]
      exact (h.down dir hphase).mono hsynced
    · obtain ⟨o, records', hopen, hread', -, -, hreplay, hnext, -⟩ := h.opens hc hphase segmentBytes
      obtain rfl := Except.ok.inj (hread.symm.trans hread')
      exact ⟨o, hopen, hreplay, hnext⟩
  up p hphase := by
    obtain ⟨base, hlively⟩ := h.up p hphase
    obtain ⟨o, hp, hbase, -⟩ := hlively.sound
    refine ⟨base, ?_, ?_⟩
    · rw [fullReplay_append, hbase, Option.bind_some]
      have hall := run_applyAll hp.history
      rw [List.map_map] at hall
      exact hall
    · rw [told, hphase]
      exact hp.told hbase hlively.covers.opened

theorem OneHistory.told (h : OneHistory codec config l) :
    ∃ records, Told config records l.told := by
  cases hphase : l.phase with
  | down dir =>
    obtain ⟨records, -, htold, -⟩ := h.down dir hphase
    exact ⟨records, htold⟩
  | up p =>
    obtain ⟨base, -, htold⟩ := h.up p hphase
    exact ⟨_, htold⟩

/-- **One history over all lives.** However often the process dies, everything that was ever let out
is what the replay of one log says, each thing at most once and in its order; that log is what is
read back and gone on from, so nothing that was told is taken back. -/
theorem one_history (hc : codec.Lawful)
    {tr : List (Runs.Transition Lives Move (Option Pipeline.Output))}
    (hrun : Run codec config options tr l) (hcalm : ∀ t ∈ tr, Calm t) :
    OneHistory codec config l ∧ ∀ t ∈ tr, t.post.told <+: l.told := by
  obtain ⟨⟨appended, synced, hsound⟩, hpast⟩ := run_sound hc hrun hcalm
  exact ⟨hsound.oneHistory hc, hpast⟩

/-- The auction is opened and answers; the process dies with a tick applied and not synced, and the
directory is opened again. -/
def sampleMoves : List Move :=
  [.open 4096 false 0, .live (.submit ⟨.open, some 0⟩), .live (.engine 0 0 0),
    .live (.engine 0 0 0), .live .hand, .live .hand, .live .hand, .live (.acks false),
    .live (.commit .poll), .live (.commit .lapse), .live (.commit (.write none)),
    .live (.commit (.write none)), .live (.commit .publish), .live (.acks false),
    .live (.acks false), .live (.acks false), .live (.acks false), .live (.acks false), .save 0 0,
    .live (.submit ⟨.tick, none⟩), .live (.engine 0 0 0), .live (.engine 0 0 0), .crash 64,
    .open 4096 false 9]

theorem one_history_sample :
    let played := Runs.play (step Bincode.codec (.sample 0) ⟨4, ⟨4, 4⟩, 0, .async⟩) new sampleMoves
    played.1.length = 24 ∧ played.2.told.map Emission.seq = [0, 0, 0] ∧
      OneHistory Bincode.codec (.sample 0) played.2 ∧
        ∀ t ∈ played.1, t.post.told <+: played.2.told :=
  ⟨by decide +kernel, by decide +kernel,
    one_history Bincode.lawful (Runs.run_play _ _ _) (by decide +kernel)⟩

end Lives

end DutchAuction
