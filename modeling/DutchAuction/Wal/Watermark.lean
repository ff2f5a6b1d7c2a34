import DutchAuction.Wal.Platter

/-!
# The watermark across crashes

A log that is open says how far it is durable, and the commit thread that owns it lets through
whoever waits for no more than that. `SoundMark` is what this is worth: what a log holds durable, or
a caller was let through for, reads back after every power loss from then on, whatever else happens
to the directory.

The commit thread only appends and syncs, so below each of its states there is one of the medium
(`Below`), and the thread never publishes more than that one holds durable. In a run of the medium
every mark is then sound if and only if every log was opened on a last segment that was settled
(`watermark_sound_iff`). A kill can leave one that is not: records that only the cache of the
operating system holds are read back, taken for durable, and lost with the power
(`reread_outruns_platter`).
-/

namespace DutchAuction

/-- The log that the writer thread holds. -/
def Writer.wal? : Writer → Option Wal
  | .receiving wal | .gathering wal _ | .writing wal _ _ | .publishing wal _ _
  | .draining wal _ => some wal
  | .closing _ | .returning | .ended => none

namespace Medium

variable {c : Codec} {config : AuctionConfig} {m m' : Medium} {r : LogRecord} {w : Wal}
  {options : WalOptions}

/-! ## What lasts -/

/-- The record is read back after any power loss from now on. -/
def Lasts (c : Codec) (config : AuctionConfig) (m : Medium) (r : LogRecord) : Prop :=
  ∀ tr m', Runs.Run (step c config) m tr m' →
    (∀ t ∈ tr, t.post.dir.segs.entries.length ≤ SEGMENTS) → m'.Survives c r

theorem Valid.lasts (hc : c.Lawful) (hv : m.Valid c config) (h : m.Survives c r) :
    m.Lasts c config r := by
  intro tr m' hrun hfew
  refine (hrun.invariant_of (P := fun u : Medium ↦ u.Valid c config ∧ u.Survives c r)
    (C := fun t ↦ t.post.dir.segs.entries.length ≤ SEGMENTS) ⟨hv, h⟩ ?_ hfew).2
  rintro u op u' out ⟨hu, hsurvives⟩ hstep hfew
  obtain ⟨hu', hkept, -⟩ := hu.step hc hstep hfew
  exact ⟨hu', hkept r hsurvives⟩

/-! ## The medium below a commit thread

A step of the thread is one of the medium or does not concern it, and the mark of the thread is no
further than what its log holds durable. -/

/-- The thread works on these files. It lets nobody through for more than their log holds
durable. -/
structure Below (m : Medium) (found : List LogRecord) (t : CommitThread) : Prop where
  dir : m.dir = t.dir
  written : m.written = found ++ t.appended
  wal : ∃ w, m.wal = some w ∧ t.watermark.durable ≤ w.durable ∧ ∀ w' ∈ t.writer.wal?, w' = w
  published : ∀ w d after, t.writer = .publishing w d after → d = w.durable

section Below

variable {t t' : CommitThread} {found : List LogRecord}

theorem Below.same (h : m.Below found t) (hdir : t'.dir = t.dir)
    (happended : t'.appended = t.appended)
    (hmark : t'.watermark = t.watermark) (hwal : ∀ w ∈ t'.writer.wal?, w ∈ t.writer.wal?)
    (hpublished : ∀ w d after, t'.writer = .publishing w d after → t'.writer = t.writer) :
    m.Below found t' where
  dir := h.dir.trans hdir.symm
  written := h.written.trans (congrArg (found ++ ·) happended.symm)
  wal := by
    obtain ⟨w, hw, hle, hheld⟩ := h.wal
    exact ⟨w, hw, hmark ▸ hle, fun w' hw' ↦ hheld w' (hwal w' hw')⟩
  published w d after hw := h.published w d after ((hpublished w d after hw).symm.trans hw)

theorem Below.spawn (hw : m.wal = some w) : m.Below m.written (CommitThread.spawn w m.dir) where
  dir := rfl
  written := (List.append_nil _).symm
  wal := ⟨w, hw, markLE_refl _, fun _ hw' ↦ (Option.some.inj hw').symm⟩
  published _ _ _ hw' := by cases hw'

theorem Below.send (h : m.Below found t) {msg : Msg} {sent : Bool}
    (hsend : t.send options msg = some (t', sent)) : m.Below found t' := by
  obtain ⟨-, -, rfl⟩ | ⟨-, -, rfl⟩ := CommitThread.send_cases hsend
  · exact h.same rfl rfl rfl (fun _ ↦ id) fun _ _ _ _ ↦ rfl
  · exact h

theorem Below.poll (h : m.Below found t) (hpoll : t.poll options = some t') : m.Below found t' := by
  have hmoves : ∀ {queue writer}, (∀ w ∈ Writer.wal? writer, w ∈ t.writer.wal?) →
      (∀ w d after, writer ≠ .publishing w d after) →
        m.Below found { t with queue := queue, writer := writer } := fun hwal hpublished ↦
    h.same rfl rfl rfl hwal fun w d after hw ↦ absurd hw (hpublished w d after)
  rw [CommitThread.poll] at hpoll
  split at hpoll
  · rename_i hw hq
    cases hpoll
    exact hmoves (by rw [hw]; exact fun _ ↦ id) fun _ _ _ ↦ Writer.noConfusion
  · rename_i hw hq
    cases hpoll
    exact hmoves (by rw [hw]; exact fun _ ↦ id) fun _ _ _ ↦ Writer.noConfusion
  · rename_i hw hq
    split_ifs at hpoll
    cases hpoll
    exact hmoves (by rw [hw]; exact fun _ ↦ id) fun _ _ _ ↦ Writer.noConfusion
  · rename_i wal batch hw
    by_cases hroom : batch.length < options.maxBatch
    · rw [if_pos hroom] at hpoll
      split at hpoll
      · cases hpoll
        exact hmoves (by rw [hw]; exact fun _ ↦ id) fun _ _ _ ↦ Writer.noConfusion
      · cases hpoll
        exact hmoves (by rw [hw]; exact fun _ ↦ id) fun _ _ _ ↦ Writer.noConfusion
      · split_ifs at hpoll
        cases hpoll
        exact hmoves (by rw [hw]; exact fun _ ↦ id) fun _ _ _ ↦ Writer.noConfusion
    · rw [if_neg hroom] at hpoll
      cases hpoll
      exact hmoves (by rw [hw]; exact fun _ ↦ id) fun _ _ _ ↦ Writer.noConfusion
  · rename_i hw hq
    cases hpoll
    exact hmoves (by rw [hw]; exact fun _ ↦ id) fun _ _ _ ↦ Writer.noConfusion
  · rename_i hw hq
    cases hpoll
    exact hmoves (by rw [hw]; exact fun _ ↦ id) fun _ _ _ ↦ Writer.noConfusion
  · cases hpoll
    exact hmoves (fun w hw ↦ absurd hw (Option.not_mem_none w)) fun _ _ _ ↦ Writer.noConfusion
  · rename_i hw hq
    cases hpoll
    exact hmoves (by rw [hw]; exact fun _ ↦ id) fun _ _ _ ↦ Writer.noConfusion
  · cases hpoll

/-- Steps other than opening, that leave no more segments than can be named. -/
def Quiet (tr : List (Runs.Transition Medium Operation (Except WalError Unit))) : Prop :=
  ∀ u ∈ tr, u.post.dir.segs.entries.length ≤ SEGMENTS ∧ ∀ n : U64, u.input ≠ .open n

theorem Valid.quiet (hc : c.Lawful) (hv : m.Valid c config) (hcovered : m.Covered c)
    {tr : List (Runs.Transition Medium Operation (Except WalError Unit))}
    (hrun : Runs.Run (Medium.step c config) m tr m') (hquiet : Quiet tr) :
    m'.Valid c config ∧ m'.Covered c := by
  refine hrun.invariant_of (P := fun u : Medium ↦ u.Valid c config ∧ u.Covered c)
    (C := fun u ↦ u.post.dir.segs.entries.length ≤ SEGMENTS ∧ ∀ n : U64, u.input ≠ Operation.open n)
    ⟨hv, hcovered⟩ ?_ hquiet
  rintro u op u' out ⟨hu, hcovered⟩ hstep ⟨hfew, hother⟩
  obtain ⟨hu', -, hcovered'⟩ := hu.step hc hstep hfew
  exact ⟨hu', hcovered' (fun n hopen ↦ absurd hopen (hother n)) hcovered⟩

/-- The files of the thread are those of a medium that appended and synced. -/
def Serves (c : Codec) (config : AuctionConfig) (m : Medium) (t : CommitThread) : Prop :=
  ∃ tr m', Runs.Run (step c config) m tr m' ∧ Quiet tr ∧ m'.Below m.written t

theorem Below.write (hv : m.Valid c config) (h : m.Below found t)
    (hwrite : t.write c none = some t') (hfew : t'.dir.segs.entries.length ≤ SEGMENTS) :
    m.Below found t' ∨ ∃ op out m', m.step c config op = some (m', out) ∧
      (∀ n, op ≠ .open n) ∧ m'.dir.segs.entries.length ≤ SEGMENTS ∧ m'.Below found t' := by
  rw [CommitThread.write] at hwrite
  split at hwrite
  · rename_i wal rest after hwriter
    obtain ⟨w, hw, hle, hheld⟩ := h.wal
    obtain rfl : wal = w := hheld wal (by rw [hwriter]; rfl)
    cases rest with
    | cons record rest =>
      dsimp only at hwrite
      split_ifs at hwrite
      rw [← h.dir] at hwrite
      cases happend : wal.append c m.dir record with
      | error e =>
        rw [happend] at hwrite
        cases hwrite
        exact Or.inl (h.same h.dir.symm.symm rfl rfl (fun w hw ↦ absurd hw (Option.not_mem_none w))
          fun _ _ _ hw ↦ by cases hw)
      | ok next =>
        obtain ⟨wal', dir⟩ := next
        rw [happend] at hwrite
        cases hwrite
        refine Or.inr ⟨.append record, .ok (),
          ⟨dir, some wal', if wal'.activeIndex = wal.activeIndex then m.platter
            else settle m.platter dir wal.activeIndex, m.written ++ [record]⟩, ?_,
          fun _ ↦ Operation.noConfusion, hfew, ?_⟩
        · rw [Medium.step, hw, Option.map_some, happend]
        · exact
            { dir := rfl
              written := by
                show m.written ++ [record] = found ++ (t.appended ++ [record])
                rw [h.written, List.append_assoc]
              wal := ⟨wal', rfl, (Wal.append_ok happend).2.2 ▸ hle,
                fun _ hw' ↦ (Option.some.inj hw').symm⟩
              published := fun _ _ _ hw' ↦ by cases hw' }
    | nil =>
      dsimp only at hwrite
      cases hwrite
      have hlog : ∃ log file, m.Stands c log file := by
        refine hv.files.resolve_left fun hfresh ↦ ?_
        rw [hfresh.wal] at hw
        cases hw
      obtain ⟨log, file, hs⟩ := hlog
      rw [← h.dir] at hfew
      refine Or.inr ⟨.sync, .ok (), { m with
          dir := (wal.sync m.dir).2
          wal := some (wal.sync m.dir).1
          platter := settle m.platter (wal.sync m.dir).2 wal.activeIndex }, ?_,
        fun _ ↦ Operation.noConfusion, hfew, ?_⟩
      · rw [Medium.step, hw]
        rfl
      · exact
          { dir := congrArg (fun dir ↦ (wal.sync dir).2) h.dir
            written := h.written
            wal := ⟨(wal.sync m.dir).1, rfl, markLE_trans hle (hs.wal wal hw).2.2,
              fun _ hw' ↦ by rw [h.dir]; exact (Option.some.inj hw').symm⟩
            published := fun _ _ _ hw' ↦ by cases hw'; rfl }
  · cases hwrite

theorem Below.advance (hv : m.Valid c config) (h : m.Below found t)
    {move : CommitThread.Move} (hcalm : ∀ fault, move ≠ .write (some fault))
    (hadvance : t.advance c options move = some t')
    (hfew : t'.dir.segs.entries.length ≤ SEGMENTS) :
    m.Below found t' ∨ ∃ op out m', m.step c config op = some (m', out) ∧
      (∀ n, op ≠ .open n) ∧ m'.dir.segs.entries.length ≤ SEGMENTS ∧ m'.Below found t' := by
  cases move with
  | poll => exact Or.inl (h.poll hadvance)
  | lapse =>
    rw [CommitThread.advance, CommitThread.lapse] at hadvance
    split at hadvance
    · rename_i hw hq
      cases hadvance
      exact Or.inl (h.same rfl rfl rfl (by rw [hw]; exact fun _ ↦ id) fun _ _ _ hw' ↦ by cases hw')
    · cases hadvance
  | write fault =>
    cases fault with
    | some fault => exact absurd rfl (hcalm fault)
    | none => exact h.write hv hadvance hfew
  | publish =>
    rw [CommitThread.advance, CommitThread.publish] at hadvance
    split at hadvance
    · rename_i wal durable after hwriter
      cases hadvance
      left
      obtain ⟨w, hw, hle, hheld⟩ := h.wal
      obtain rfl : wal = w := hheld wal (by rw [hwriter]; rfl)
      have hdurable := h.published wal durable after hwriter
      refine ⟨h.dir, h.written, ⟨wal, hw, ?_, fun w' hw' ↦ ?_⟩, fun w' d after' hw' ↦ ?_⟩
      · show (t.watermark.publish durable).durable ≤ wal.durable
        cases hmark : t.watermark with
        | live d =>
          rw [hmark] at hle
          rw [Watermark.publish]
          split_ifs
          · exact hle
          · exact hdurable ▸ markLE_refl _
        | closed d reason =>
          rw [hmark] at hle
          exact hle
      · cases after with
        | receive => exact (Option.some.inj hw').symm
        | drain => exact (Option.some.inj hw').symm
        | close => cases hw'
      · cases after with
        | receive => cases hw'
        | drain => cases hw'
        | close => cases hw'
    · cases hadvance
  | close =>
    rw [CommitThread.advance, CommitThread.close] at hadvance
    split at hadvance
    · cases hadvance
      left
      obtain ⟨w, hw, hle, hheld⟩ := h.wal
      exact ⟨h.dir, h.written, ⟨w, hw, hle, fun w' hw' ↦ absurd hw' (Option.not_mem_none w')⟩,
        fun _ _ _ hw' ↦ by cases hw'⟩
    · cases hadvance
  | «return» =>
    rw [CommitThread.advance, CommitThread.return] at hadvance
    split at hadvance
    · cases hadvance
      exact Or.inl (h.same rfl rfl rfl (fun w' hw' ↦ absurd hw' (Option.not_mem_none w'))
        fun _ _ _ hw' ↦ by cases hw')
    · cases hadvance

end Below

/-! ## The theorem

A log that opens on a last segment that is not settled holds durable what is only in the cache, so
the condition on the openings is needed too. -/

variable {g g' : GroupCommit} {config : AuctionConfig}

/-- **The thread appends and syncs**, and its callers have nothing to do with the files. -/
theorem Serves.step (hc : c.Lawful) (hv : m.Valid c config) (hcovered : m.Covered c)
    (h : m.Serves c config g.thread) {move : GroupCommit.Move}
    {out : Option (Seq × Except StopReason Unit)}
    (hcalm : ∀ fault, move ≠ .thread (.write (some fault)))
    (hstep : GroupCommit.step c options g move = some (g', out))
    (hfew : g'.thread.dir.segs.entries.length ≤ SEGMENTS) : m.Serves c config g'.thread := by
  obtain ⟨tr, m', hrun, hquiet, hbelow⟩ := h
  cases move with
  | submit r =>
    obtain ⟨sent, hsend, heq⟩ := Option.map_eq_some_iff.mp hstep
    cases heq
    exact ⟨tr, m', hrun, hquiet, hbelow.send hsend⟩
  | stop =>
    obtain ⟨sent, hsend, heq⟩ := Option.map_eq_some_iff.mp hstep
    cases heq
    exact ⟨tr, m', hrun, hquiet, hbelow.send hsend⟩
  | hangUp =>
    cases hstep
    exact ⟨tr, m', hrun, hquiet, hbelow.same rfl rfl rfl (fun _ ↦ id) fun _ _ _ _ ↦ rfl⟩
  | thread move =>
    obtain ⟨thread, hadvance, heq⟩ := Option.map_eq_some_iff.mp hstep
    obtain rfl : g.notified thread = g' := congrArg Prod.fst heq
    rw [GroupCommit.notified_thread] at hfew ⊢
    have hv' := (hv.quiet hc hcovered hrun hquiet).1
    rcases hbelow.advance hv' (fun fault hmove ↦ hcalm fault (congrArg _ hmove)) hadvance hfew with
      hbelow' | ⟨op, out, m'', hstep', hother, hfew', hbelow'⟩
    · exact ⟨tr, m', hrun, hquiet, hbelow'⟩
    · refine ⟨_, m'', hrun.snoc hstep', fun u hu ↦ ?_, hbelow'⟩
      rcases List.mem_append.mp hu with hu | hu
      · exact hquiet u hu
      · obtain rfl := List.mem_singleton.mp hu
        exact ⟨hfew', hother⟩
  | wait seq =>
    cases hstep
    exact ⟨tr, m', hrun, hquiet, hbelow⟩
  | look i =>
    rw [GroupCommit.step] at hstep
    split at hstep
    · cases hstep
    · dsimp only at hstep
      split at hstep
      · cases hstep
        exact ⟨tr, m', hrun, hquiet, hbelow⟩
      · cases hstep
        exact ⟨tr, m', hrun, hquiet, hbelow⟩

/-- What a durable record is promised: whatever happens next, it is read back after a power loss.
-/
structure SoundMark (c : Codec) (config : AuctionConfig) (m : Medium) : Prop where
  durable : ∀ w, m.wal = some w → ∀ r ∈ m.written, some r.seq ≤ w.durable → m.Lasts c config r
  /-- The same for whoever waited on a commit thread spawned from the log, and was let through. The
  thread has then done no more to the files than append and sync. -/
  waited : ∀ w, m.wal = some w → ∀ options tr g,
    GroupCommit.Run c options w m.dir tr g →
    (∀ t ∈ tr, (∀ fault, t.input ≠ .thread (.write (some fault))) ∧
      t.post.thread.dir.segs.entries.length ≤ SEGMENTS) →
    ∀ t ∈ tr, ∀ seq, t.out = some (seq, .ok ()) →
      ∃ tr' m', Runs.Run (step c config) m tr' m' ∧ m'.dir = t.pre.thread.dir ∧
        m'.written = m.written ++ t.pre.thread.appended ∧
        ∀ r ∈ m'.written, r.seq = seq → m'.Lasts c config r

theorem Covered.sound (hc : c.Lawful) (hv : m.Valid c config) (hcovered : m.Covered c) :
    m.SoundMark c config where
  durable w hw r hr hmark := hv.lasts hc (hcovered w hw r hr hmark)
  waited w hw options tr g hrun hcalm t ht seq hout := by
    obtain ⟨⟨front, hfront, hrun'⟩, hstep⟩ := hrun.split ht
    have hserves : m.Serves c config t.pre.thread :=
      hrun'.invariant_of (P := fun g : GroupCommit ↦ m.Serves c config g.thread)
        (C := fun t ↦ (∀ fault, t.input ≠ .thread (.write (some fault))) ∧
          t.post.thread.dir.segs.entries.length ≤ SEGMENTS)
        ⟨[], m, Runs.Run.nil, fun u hu ↦ absurd hu List.not_mem_nil, Below.spawn hw⟩
        (fun _ _ _ _ hserves hstep hC ↦ hserves.step hc hv hcovered hC.1 hstep hC.2)
        fun t ht ↦ hcalm t (hfront.subset ht)
    obtain ⟨tr', m', hrun'', hquiet, hbelow⟩ := hserves
    obtain ⟨hv', hcovered'⟩ := hv.quiet hc hcovered hrun'' hquiet
    rw [hout] at hstep
    have hmark := GroupCommit.le_mark_of_waited hstep
    obtain ⟨w', hw', hle, -⟩ := hbelow.wal
    refine ⟨tr', m', hrun'', hbelow.dir, hbelow.written, fun r hr hseq ↦ ?_⟩
    exact hv'.lasts hc (hcovered' w' hw' r hr (hseq ▸ markLE_trans hmark hle))

/-- **The watermark is sound in every state of a run if and only if every log of the run was opened
on a last segment that was on the platter, or ended in a torn tail.** -/
theorem watermark_sound_iff (hc : c.Lawful)
    {tr : List (Runs.Transition Medium Operation (Except WalError Unit))}
    (hrun : Run c config tr m) (hfew : ∀ t ∈ tr, t.post.dir.segs.entries.length ≤ SEGMENTS) :
    (∀ t ∈ tr, t.post.SoundMark c config) ↔
      ∀ t ∈ tr, ∀ segmentBytes, t.input = .open segmentBytes → t.pre.Settled c := by
  have hvalid : ∀ {tr' m'}, tr' <+: tr → Run c config tr' m' → m'.Valid c config :=
    fun hpre hrun' ↦ hrun'.invariant_of (P := fun u : Medium ↦ u.Valid c config)
      (C := fun t ↦ t.post.dir.segs.entries.length ≤ SEGMENTS) (new_valid c config)
      (fun _ _ _ _ hv hstep hfew ↦ (hv.step hc hstep hfew).1) fun t ht ↦ hfew t (hpre.subset ht)
  refine ⟨fun hsound t ht segmentBytes hopen ↦ ?_, fun hsettled ↦ ?_⟩
  · obtain ⟨⟨front, hfront, hrun'⟩, hstep⟩ := hrun.split ht
    rw [hopen] at hstep
    refine ((hvalid hfront hrun').open hc hstep).2.2.mp fun w hw r hr hmark ↦ ?_
    exact (hsound t ht).durable w hw r hr hmark [] _ Runs.Run.nil
      fun u hu ↦ absurd hu List.not_mem_nil
  · have hpast := (hrun.history_of (R := fun _ _ ↦ True)
      (P := fun u : Medium ↦ u.Valid c config ∧ u.Covered c)
      (C := fun t ↦ t.post.dir.segs.entries.length ≤ SEGMENTS ∧
        ∀ segmentBytes, t.input = .open segmentBytes → t.pre.Settled c)
      (fun _ ↦ trivial) (fun _ _ _ _ _ ↦ trivial)
      ⟨new_valid c config, fun w hw ↦ absurd hw.symm (Option.some_ne_none w)⟩
      (fun u op u' out hu hstep hC ↦ ?_) fun t ht ↦ ⟨hfew t ht, hsettled t ht⟩).2
    · intro t ht
      obtain ⟨hv, hcovered⟩ := (hpast t ht).1
      obtain ⟨hv', -, hcovered'⟩ := hv.step hc (hrun.split ht).2 (hfew t ht)
      exact (hcovered' (hsettled t ht) hcovered).sound hc hv'
    · obtain ⟨hv', -, hcovered'⟩ := hu.1.step hc hstep hC.1
      exact ⟨⟨hv', hcovered' hC.2 hu.2⟩, trivial⟩

/-- One record is appended, and all of its bytes spill before the process is killed. The log is
opened again. -/
def rereadOperations : List Operation :=
  [.open 4096, .append ⟨0, 0, .open⟩, .spill 4096, .kill, .open 4096]

/-- Half of a record is spilled behind one that was synced, and the power is lost. -/
def tornOperations : List Operation :=
  [.open 4096, .append ⟨0, 0, .open⟩, .sync, .append ⟨1, 0, .tick⟩, .spill 9, .kill, .open 4096,
    .append ⟨1, 0, .tick⟩, .powerLoss 4096, .open 4096]

theorem watermark_sound_iff_sample :
    (∀ t ∈ (Runs.play (step Bincode.codec (.sample 0)) new tornOperations).1,
      t.post.SoundMark Bincode.codec (.sample 0)) ↔
    ∀ t ∈ (Runs.play (step Bincode.codec (.sample 0)) new tornOperations).1,
      ∀ segmentBytes, t.input = .open segmentBytes → t.pre.Settled Bincode.codec :=
  watermark_sound_iff Bincode.lawful (Runs.run_play _ _ _) (by decide +kernel)

/-- **What is read back after a kill is durable by the mark and on no platter**: the power fails,
and the log is empty. -/
theorem reread_outruns_platter :
    ∃ tr m, Run Bincode.codec (.sample 0) tr m ∧ tr.map Runs.Transition.input = rereadOperations ∧
      m.wal.map Wal.durable = some (some 0) ∧ m.written = [⟨0, 0, .open⟩] ∧
      m.platter m.dir.lastIndex ≤ 0 ∧ Bincode.codec.readAll (m.lose 0) = .ok [] ∧
      ¬m.SoundMark Bincode.codec (.sample 0) := by
  have hrun := Runs.run_play (step Bincode.codec (.sample 0)) new rereadOperations
  have hstate : (Runs.play (step Bincode.codec (.sample 0)) new rereadOperations).1.map
        Runs.Transition.input = rereadOperations ∧
      (Runs.play (step Bincode.codec (.sample 0)) new rereadOperations).2.wal.map Wal.durable =
        some (some 0) ∧
      (Runs.play (step Bincode.codec (.sample 0)) new rereadOperations).2.written =
        [⟨0, 0, .open⟩] ∧
      (Runs.play (step Bincode.codec (.sample 0)) new rereadOperations).2.platter
        (Runs.play (step Bincode.codec (.sample 0)) new rereadOperations).2.dir.lastIndex ≤ 0 ∧
      Bincode.codec.readAll
        ((Runs.play (step Bincode.codec (.sample 0)) new rereadOperations).2.lose 0) = .ok [] := by
    decide +kernel
  generalize (Runs.play (step Bincode.codec (.sample 0)) new rereadOperations).1 = tr at hrun hstate
  generalize (Runs.play (step Bincode.codec (.sample 0)) new rereadOperations).2 = m at hrun hstate
  obtain ⟨hinputs, hdurable, hwritten, hplatter, hread⟩ := hstate
  refine ⟨tr, m, hrun, hinputs, hdurable, hwritten, hplatter, hread, fun hsound ↦ ?_⟩
  obtain ⟨w, hw, hmark⟩ := Option.map_eq_some_iff.mp hdurable
  obtain ⟨records, hread', hr⟩ := hsound.durable w hw ⟨0, 0, .open⟩
    (hwritten ▸ List.mem_singleton_self _) (hmark ▸ markLE_refl _) [] m Runs.Run.nil
    (fun u hu ↦ absurd hu List.not_mem_nil) 0 hplatter
  cases hread.symm.trans hread'
  exact List.not_mem_nil hr

end Medium

end DutchAuction
