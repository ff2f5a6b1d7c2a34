import DutchAuction.Wal.Damage
import DutchAuction.Wal.Recovery

/-!
# What recovery serves from a disk

On an honest disk, one with the whole log and with snapshots that are each unreadable or the state
after some record of that log, recovery gives what a full replay gives, whichever snapshots are
there (`recover_eq_full_replay`).

On a disk that has lost segments, a snapshot may stand in for the records that are gone, and a gap
that it does not cover is reported. The head of the log has no neighbour before it to be compared
with: a log that starts after the first record is replayed from a fresh auction, unless a snapshot
that the log reaches covers what is missing (`recover_serves_whole_iff`).
-/

namespace DutchAuction

/-- The snapshot files of a history: each is unreadable or the state after the record it is labelled
with. -/
def Snapshots.Of (snaps : Snapshots) (config : AuctionConfig) (history : List LogRecord) : Prop :=
  ∀ k s, (k, .ok s) ∈ snaps.entries →
    s.seq = k ∧ k.val < history.length ∧
      fullReplay config (history.take (k.val + 1)) = some s.state

/-- The newest snapshot that can be read, if there is one. -/
def Snapshots.Newest (snaps : Snapshots) : Option Seq → Prop
  | none => ∀ k s, (k, .ok s) ∉ snaps.entries
  | some k => (∃ s, (k, .ok s) ∈ snaps.entries) ∧ ∀ k' s, (k', .ok s) ∈ snaps.entries → k' ≤ k

variable {c : Codec} {config : AuctionConfig} {dir : Dir} {history records : List LogRecord}
  {n : Seq}

theorem Snapshots.Of.latestUsable {snaps : Snapshots} (h : snaps.Of config history) {s : Snapshot}
    (hs : snaps.latestUsable = some s) :
    snaps.Newest (some s.seq) ∧ s.seq.val < history.length ∧
      fullReplay config (history.take (s.seq.val + 1)) = some s.state := by
  obtain ⟨k, hmem, hnewest⟩ := Snapshots.latestUsable_eq_some hs
  obtain ⟨rfl, hlt, hstate⟩ := h k s hmem
  exact ⟨⟨⟨s, hmem⟩, hnewest⟩, hlt, hstate⟩

theorem Snapshots.Of.mono {snaps : Snapshots} (h : snaps.Of config history)
    {longer : List LogRecord} (hfront : history <+: longer) : snaps.Of config longer := by
  intro k s hmem
  obtain ⟨hseq, hlt, hstate⟩ := h k s hmem
  obtain ⟨rest, rfl⟩ := hfront
  refine ⟨hseq, ?_, ?_⟩
  · rw [List.length_append]
    omega
  · rwa [List.take_append_of_le_length hlt]

theorem Snapshots.Of.write {snaps : Snapshots} (h : snaps.Of config history) {state : AuctionState}
    {seq : Seq} (hlast : state.lastSeq = some seq) (hlt : seq.val < history.length)
    (hstate : fullReplay config (history.take (seq.val + 1)) = some state) :
    (snaps.write state).2.Of config history := by
  intro k s hmem
  rw [Snapshots.write, hlast] at hmem
  rcases OrdMap.mem_entries_upsert hmem with ⟨old, heq⟩ | ⟨-, hmem⟩
  · obtain ⟨rfl, hs⟩ := Prod.mk.inj heq
    obtain rfl := Except.ok.inj hs
    exact ⟨rfl, hlt, hstate⟩
  · exact h k s hmem

theorem Snapshots.Of.pruneSome {snaps : Snapshots} (h : snaps.Of config history) (keep n : ℕ) :
    (snaps.pruneSome keep n).2.Of config history :=
  fun k s hmem ↦ h k s (List.mem_of_mem_filter hmem)

/-! ## An honest disk

A snapshot of the history stays one when the history grows, when another is written and when some
are deleted, so these disks are those that a run leaves as long as nothing is lost. -/

/-- A disk with the whole log and honest snapshots. -/
structure HonestDisk (c : Codec) (config : AuctionConfig) (dir : Dir) (records : List LogRecord) :
    Prop where
  manifest : dir.manifest = some (.ok config)
  log : c.readAll dir = .ok records
  numbered : NumberedFrom 0 records
  snapshots : dir.snaps.Of config records

theorem Codec.recover_eq (hmanifest : dir.manifest = some (.ok config))
    (hread : c.readAll dir = .ok records) :
    c.recover dir = recoverFrom config records dir.snaps.latestUsable := by
  rw [recover, Dir.readManifest, hmanifest]
  dsimp only
  rw [hread]

/-- **Recovery equals full replay on every honest disk.** -/
theorem recover_eq_full_replay (h : HonestDisk c config dir records)
    (hn : records.length = n.val) :
    ∃ r, c.recover dir = some (.ok r) ∧ fullReplay config records = some r.state ∧
      r.nextSeq = n ∧ dir.snaps.Newest r.fromSnapshot ∧
      r.replayed = n.val - r.fromSnapshot.elim 0 fun k ↦ k.val + 1 := by
  have hbefore : ∀ s ∈ dir.snaps.latestUsable, ¬EndsBefore records s := by
    rintro s hs ⟨r, hr, hbefore⟩
    have hlt := (h.snapshots.latestUsable hs).2.1
    have hlast := h.numbered.getLast? hr
    have : r.seq.val < s.seq.val := hbefore
    omega
  obtain ⟨r, hrecover, hstate, hnext, hfrom⟩ := recoverFrom_honest h.numbered hn
    fun s hs ↦ Or.inr (h.snapshots.latestUsable hs).2
  refine ⟨r, (Codec.recover_eq h.manifest h.log).trans hrecover, hstate, hnext, ?_⟩
  rcases hfrom with ⟨hnone, hreplayed, hignored⟩ | ⟨s, hs, -, hsome, hreplayed⟩
  · rw [hnone]
    refine ⟨Snapshots.latestUsable_eq_none ?_, hreplayed⟩
    refine Option.eq_none_iff_forall_not_mem.mpr fun s hs ↦ hbefore s hs (hignored s hs)
  · rw [hsome]
    exact ⟨(h.snapshots.latestUsable hs).1, hreplayed⟩

/-- An auction is opened and ticked twice. -/
def sampleHistory : List LogRecord := [⟨0, 0, .open⟩, ⟨1, 0, .tick⟩, ⟨2, 0, .tick⟩]

/-- Its state after the second record, and a file that cannot be read. -/
def sampleSnapshots : Snapshots :=
  (OrdMap.empty.upsert 1 fun _ ↦
    .ok ⟨1, ((fullReplay (.sample 0) (sampleHistory.take 2)).get (by decide))⟩).upsert
      2 fun _ ↦ .error "checksum mismatch"

theorem sampleSnapshots_of : sampleSnapshots.Of (.sample 0) sampleHistory := by
  intro k s hmem
  rcases List.mem_cons.mp hmem with heq | hmem
  · obtain ⟨rfl, hs⟩ := Prod.ext_iff.mp heq
    cases hs
    exact ⟨rfl, by decide, rfl⟩
  · cases congrArg Prod.snd (List.mem_singleton.mp hmem)

theorem Dir.rolled_reads : Bincode.codec.readAll Dir.rolled = .ok sampleHistory := by
  have hholds : Dir.rolled.Holds Bincode.codec
      ⟨[(0, [⟨0, 0, .open⟩, ⟨1, 0, .tick⟩])], 1, [⟨2, 0, .tick⟩]⟩
      (Bincode.codec.frames [⟨2, 0, .tick⟩] ++ []) := by
    rw [List.append_nil]
    exact ⟨rfl⟩
  exact Codec.readAll_eq Bincode.lawful hholds (by decide) (Or.inl rfl) (by decide)

theorem recover_eq_full_replay_sample :
    ∃ r, Bincode.codec.recover { Dir.rolled with snaps := sampleSnapshots } = some (.ok r) ∧
      fullReplay (.sample 0) sampleHistory = some r.state ∧ r.nextSeq = 3 ∧
      sampleSnapshots.Newest r.fromSnapshot ∧
      r.replayed = 3 - r.fromSnapshot.elim 0 fun k ↦ k.val + 1 :=
  recover_eq_full_replay ⟨rfl, Dir.rolled_reads, by decide, sampleSnapshots_of⟩ rfl

/-! ## What can be read of a log -/

theorem Codec.extend_ok {all all' records : List LogRecord}
    (h : Codec.extend all records = .ok all') :
    all' = all ++ records ∧ (Gapless all → Gapless all') := by
  induction records generalizing all with
  | nil =>
    cases h
    exact ⟨(List.append_nil _).symm, id⟩
  | cons r records ih =>
    rw [Codec.extend] at h
    have hgoal : Codec.extend (all ++ [r]) records = .ok all' ∧
        (Gapless all → Gapless (all ++ [r])) := by
      cases hlast : all.getLast? with
      | none =>
        rw [hlast] at h
        obtain rfl := List.getLast?_eq_none_iff.mp hlast
        exact ⟨h, fun _ ↦ List.isChain_singleton _⟩
      | some prev =>
        rw [hlast] at h
        dsimp only at h
        split_ifs at h with hnext
        refine ⟨h, fun hgap ↦ List.isChain_append.mpr ⟨hgap, List.isChain_singleton _, ?_⟩⟩
        rintro last hlast' _ ⟨rfl⟩
        rw [hlast] at hlast'
        cases hlast'
        exact hnext
    obtain ⟨heq, hgap⟩ := ih hgoal.1
    rw [List.append_assoc, List.singleton_append] at heq
    exact ⟨heq, fun h ↦ hgap (hgoal.2 h)⟩

theorem Codec.readFrom_ok {all all' : List LogRecord} {segments : List (ℕ × List UInt8)}
    (h : c.readFrom all segments = .ok all') (hgap : Gapless all) :
    Gapless all' ∧ ∀ r ∈ all', r ∈ all ∨ ∃ e ∈ segments, ∃ contents,
      c.readSegment e.1 e.2 = .ok contents ∧ r ∈ contents.records := by
  induction segments generalizing all with
  | nil =>
    cases h
    exact ⟨hgap, fun r hr ↦ Or.inl hr⟩
  | cons e segments ih =>
    rw [Codec.readFrom] at h
    cases hread : c.readSegment e.1 e.2 with
    | error err =>
      rw [hread] at h
      cases h
    | ok contents =>
      rw [hread] at h
      dsimp only at h
      split_ifs at h
      cases hextend : Codec.extend all contents.records with
      | error err =>
        rw [hextend] at h
        cases h
      | ok all'' =>
        rw [hextend] at h
        obtain ⟨rfl, hgap'⟩ := Codec.extend_ok hextend
        obtain ⟨hgap'', hmem⟩ := ih h (hgap' hgap)
        refine ⟨hgap'', fun r hr ↦ ?_⟩
        rcases hmem r hr with hr | ⟨e', he', contents', hread', hr⟩
        · rcases List.mem_append.mp hr with hr | hr
          · exact Or.inl hr
          · exact Or.inr ⟨e, List.mem_cons_self, contents, hread, hr⟩
        · exact Or.inr ⟨e', List.mem_cons_of_mem _ he', contents', hread', hr⟩

theorem Codec.readAll_numbered {dir : Dir} {records : List LogRecord}
    (h : c.readAll dir = .ok records) : ∃ n, NumberedFrom n records :=
  (Codec.readFrom_ok h List.IsChain.nil).1.numbered

/-! ## A disk that has lost files

What still reads is a stretch of the history. With a snapshot that it reaches, the records behind
that are applied or a gap is reported; without one, all of it is applied to a fresh auction. -/

/-- What is left of a history: segments may be gone, cut or empty, and snapshots gone or unreadable,
but what reads is of the history. -/
structure Remains (c : Codec) (config : AuctionConfig) (dir : Dir) (history : List LogRecord) :
    Prop where
  manifest : dir.manifest = some (.ok config)
  numbered : NumberedFrom 0 history
  segments : ∀ e ∈ dir.segs.entries, ∀ contents, c.readSegment e.1 e.2 = .ok contents →
    ∀ r ∈ contents.records, r ∈ history
  snapshots : dir.snaps.Of config history

/-- The commands behind a recovered state: those of the snapshot, and the records behind it. -/
def Recovered.commands (r : Recovered) (history records : List LogRecord) : List LogRecord :=
  match r.fromSnapshot with
  | none => records
  | some k => history.take (k.val + 1) ++ records.filter fun record ↦ k < record.seq

/-- Whatever recovery serves is the history up to where it resumes, with no command missing. -/
def ServesWhole (c : Codec) (config : AuctionConfig) (dir : Dir) (history : List LogRecord) :
    Prop :=
  ∀ r, c.recover dir = some (.ok r) →
    r.nextSeq.val ≤ history.length ∧
      fullReplay config (history.take r.nextSeq.val) = some r.state ∧
      ∀ records, c.readAll dir = .ok records →
        r.commands history records = history.take r.nextSeq.val

/-- The log is empty or starts with the first record, or there is a snapshot that it reaches. -/
def HeadCovered (records : List LogRecord) (snapshot : Option Snapshot) : Prop :=
  (∀ r ∈ records.head?, r.seq = Seq.START) ∨ ∃ s ∈ snapshot, ¬EndsBefore records s

namespace Remains

variable (h : Remains c config dir history)
include h

theorem stretch (hread : c.readAll dir = .ok records) :
    ∃ a, NumberedFrom a records ∧ (∀ r ∈ records, r ∈ history) ∧
      ∀ r ∈ records.head?, r.seq.val = a := by
  obtain ⟨hgap, hmem⟩ := Codec.readFrom_ok hread List.IsChain.nil
  have hhistory : ∀ r ∈ records, r ∈ history := by
    intro r hr
    rcases hmem r hr with hnil | ⟨e, he, contents, hcontents, hr⟩
    · exact absurd hnil List.not_mem_nil
    · exact h.segments e (List.mem_of_mem_filter he) contents hcontents r hr
  cases records with
  | nil => exact ⟨0, trivial, hhistory, fun r hr ↦ absurd hr (Option.not_mem_none r)⟩
  | cons r records =>
    exact ⟨r.seq.val, NumberedFrom.of_gapless hgap, hhistory, fun r' hr' ↦ by cases hr'; rfl⟩

theorem take_append {back : List LogRecord} {k : ℕ} (hk : k ≤ history.length)
    (hback : NumberedFrom k back) (hmem : ∀ r ∈ back, r ∈ history) :
    history.take k ++ back = history.take (k + back.length) ∧
      k + back.length ≤ history.length := by
  have hjoin : history.take k ++ back = history.take (k + back.length) := by
    rw [List.take_add, ← h.numbered.eq_take hback hmem]
  have hlen := congrArg List.length hjoin
  rw [List.length_append, List.length_take, List.length_take] at hlen
  exact ⟨hjoin, by omega⟩

theorem replays (k : ℕ) : ∃ state, fullReplay config (history.take k) = some state := by
  have hnum := h.numbered
  rw [← List.take_append_drop k history, NumberedFrom.append] at hnum
  obtain ⟨state, hstate, -⟩ := applyAll_numbered (AuctionState.new_at config 0) hnum.1
  exact ⟨state, hstate⟩

theorem serves_of_used (hn : history.length = n.val) (hread : c.readAll dir = .ok records)
    {s : Snapshot} (hs : dir.snaps.latestUsable = some s) (hused : ¬EndsBefore records s) :
    ServesWhole c config dir history := by
  obtain ⟨-, hlt, hpre⟩ := h.snapshots.latestUsable hs
  obtain ⟨a, hnum, hmem, hhead⟩ := h.stretch hread
  have hrecover := Codec.recover_eq h.manifest hread
  rw [hs] at hrecover
  by_cases hgap : ∃ r ∈ records.head?, s.seq.val + 1 < r.seq.val
  · -- A gap at the seam.
    obtain ⟨r, hr, hgap⟩ := hgap
    obtain ⟨rest, rfl⟩ : ∃ rest, records = r :: rest := List.head?_eq_some_iff.mp hr
    rw [recoverFrom, startFrom_used config hused] at hrecover
    dsimp only at hrecover
    rw [replay_gap hgap, Option.bind_some] at hrecover
    intro r' hr'
    rw [hrecover] at hr'
    cases hr'
  · -- The log starts no later than just behind the snapshot.
    have hstart : records ≠ [] → a ≤ s.seq.val + 1 := by
      intro hne
      obtain ⟨r, rest, rfl⟩ := List.exists_cons_of_ne_nil hne
      have := hhead r rfl
      have : ¬s.seq.val + 1 < r.seq.val := fun h ↦ hgap ⟨r, rfl, h⟩
      omega
    obtain ⟨front, back, hsplit, hfront, hback, -⟩ := hnum.split hstart fun last hlast ↦ by
      by_contra hlt
      exact hused ⟨last, hlast, not_le.mp hlt⟩
    rw [hsplit] at hused hrecover
    obtain ⟨hjoin, hle⟩ := h.take_append hlt hback fun r hr ↦
      hmem r (hsplit ▸ List.mem_append_right front hr)
    obtain ⟨state, hstate⟩ := h.replays (s.seq.val + 1 + back.length)
    have hrest : applyAll s.state back = some state := by
      have hall := hstate
      rw [← hjoin, fullReplay_append, hpre, Option.bind_some] at hall
      exact hall
    obtain ⟨next, hnext⟩ : ∃ next : Seq, next.val = s.seq.val + 1 + back.length :=
      ⟨⟨_, by have := n.val_lt; omega⟩, rfl⟩
    rw [← hnext] at hle hstate hjoin
    rw [recoverFrom_snapshot hused hfront hback hnext, hrest, Option.map_some] at hrecover
    intro r hr
    rw [hrecover] at hr
    cases hr
    refine ⟨hle, hstate, fun records' hread' ↦ ?_⟩
    rw [hread] at hread'
    cases hread'
    have hnone : front.filter (fun r ↦ s.seq < r.seq) = [] :=
      List.filter_eq_nil_iff.mpr fun r hr hlt ↦ absurd (of_decide_eq_true hlt) (hfront r hr).not_gt
    have hall : back.filter (fun r ↦ s.seq < r.seq) = back :=
      List.filter_eq_self.mpr fun r hr ↦ decide_eq_true (hback.le_of_mem hr).1
    show history.take (s.seq.val + 1) ++ records.filter (fun r ↦ s.seq < r.seq) = _
    rw [hsplit, List.filter_append, hnone, hall, List.nil_append, hjoin]

theorem recover_fresh (hn : history.length = n.val) (hread : c.readAll dir = .ok records)
    (hunused : ∀ s ∈ dir.snaps.latestUsable, EndsBefore records s) {a : ℕ}
    (hnum : NumberedFrom a records) (hmem : ∀ r ∈ records, r ∈ history) :
    ∃ state next, c.recover dir = some (.ok ⟨state, next, records.length, none⟩) ∧
      fullReplay config records = some state ∧
      next.val = if records = [] then 0 else a + records.length := by
  obtain ⟨state, hstate, -⟩ := applyAll_numbered (AuctionState.new_at config a) hnum
  have hfit : (if records = [] then 0 else a + records.length) < 2 ^ 64 := by
    split_ifs with hnil
    · exact Nat.two_pow_pos 64
    · have hlast := List.getLast?_eq_some_getLast hnil
      have hend := hnum.getLast? hlast
      have := (h.numbered.le_of_mem (hmem _ (List.getLast_mem hnil))).2
      have := n.val_lt
      omega
  obtain ⟨next, hnext⟩ : ∃ next : Seq,
      next.val = if records = [] then 0 else a + records.length := ⟨⟨_, hfit⟩, rfl⟩
  refine ⟨state, next, ?_, hstate, hnext⟩
  rw [Codec.recover_eq h.manifest hread, recoverFrom_fresh hunused hnum hnext,
    show fullReplay config records = some state from hstate, Option.map_some]

end Remains

/-- **Recovery serves the history with no command missing if and only if the head of the log is
covered.** -/
theorem recover_serves_whole_iff (h : Remains c config dir history) (hn : history.length = n.val) :
    ServesWhole c config dir history ↔
      ∀ records, c.readAll dir = .ok records → HeadCovered records dir.snaps.latestUsable := by
  refine ⟨fun hserves records hread ↦ ?_, fun hcovered ↦ ?_⟩
  · by_contra hnot
    rw [HeadCovered, not_or] at hnot
    obtain ⟨hhead, hunused⟩ := hnot
    push Not at hhead hunused
    obtain ⟨r, hr, hstart⟩ := hhead
    obtain ⟨a, hnum, hmem, ha⟩ := h.stretch hread
    obtain ⟨state, next, hrecover, -, hnext⟩ := h.recover_fresh hn hread hunused hnum hmem
    obtain ⟨hle, -, hcommands⟩ := hserves _ hrecover
    have hne : records ≠ [] := fun hnil ↦ by rw [hnil] at hr; cases hr
    rw [if_neg hne] at hnext
    -- As many commands as were read are behind the state, and that is fewer than the history has.
    have hlen := congrArg List.length (hcommands records hread)
    rw [List.length_take_of_le hle] at hlen
    have hzero : r.seq.val = 0 := by
      have : records.length = next.val := hlen
      have := ha r hr
      omega
    exact hstart (U64.ext hzero)
  · cases hread : c.readAll dir with
    | error e =>
      intro r hr
      rw [Codec.recover, Dir.readManifest, h.manifest] at hr
      dsimp only at hr
      rw [hread] at hr
      cases hr
    | ok records =>
      by_cases hused : ∃ s ∈ dir.snaps.latestUsable, ¬EndsBefore records s
      · obtain ⟨s, hs, hused⟩ := hused
        exact h.serves_of_used hn hread hs hused
      · have hhead := (hcovered records hread).resolve_right hused
        push Not at hused
        obtain ⟨a, hnum, hmem, ha⟩ := h.stretch hread
        have hzero : NumberedFrom 0 records := by
          cases records with
          | nil => trivial
          | cons r rest =>
            have hstart := hhead r rfl
            have hfirst := ha r rfl
            rw [hstart] at hfirst
            rwa [show a = 0 from hfirst.symm] at hnum
        obtain ⟨state, next, hrecover, hstate, hnext⟩ :=
          h.recover_fresh hn hread hused hzero hmem
        have hnext' : next.val = records.length := by
          rw [hnext]
          split_ifs with hnil
          · rw [hnil, List.length_nil]
          · exact Nat.zero_add _
        obtain ⟨hjoin, hle⟩ := h.take_append (Nat.zero_le _) hzero hmem
        rw [List.take_zero, List.nil_append, Nat.zero_add] at hjoin
        rw [Nat.zero_add] at hle
        intro r hr
        rw [hrecover] at hr
        cases hr
        refine ⟨hnext' ▸ hle, ?_, fun records' hread' ↦ ?_⟩
        · show fullReplay config (history.take next.val) = some state
          rw [hnext', ← hjoin, hstate]
        · rw [hread] at hread'
          cases hread'
          show records = history.take next.val
          rw [hnext', ← hjoin]

/-- The first segment is gone. -/
def Dir.beheaded (snaps : Snapshots) : Dir where
  manifest := some (.ok (.sample 0))
  segs := OrdMap.empty.upsert 1 fun _ ↦ Bincode.codec.frames [⟨2, 0, .tick⟩]
  snaps := snaps

theorem Dir.beheaded_reads (snaps : Snapshots) :
    Bincode.codec.readAll (Dir.beheaded snaps) = .ok [⟨2, 0, .tick⟩] := by
  have hholds : (Dir.beheaded snaps).Holds Bincode.codec ⟨[], 1, [⟨2, 0, .tick⟩]⟩
      (Bincode.codec.frames [⟨2, 0, .tick⟩] ++ []) := by
    rw [List.append_nil]
    exact ⟨rfl⟩
  exact Codec.readAll_eq Bincode.lawful hholds (by decide) (Or.inl rfl) (by decide)

theorem Dir.beheaded_remains {snaps : Snapshots} (h : snaps.Of (.sample 0) sampleHistory) :
    Remains Bincode.codec (.sample 0) (Dir.beheaded snaps) sampleHistory where
  manifest := rfl
  numbered := by decide
  segments e he contents hcontents r hr := by
    obtain rfl := List.mem_singleton.mp he
    have hread := Bincode.lawful.readSegment_frames 1 [⟨2, 0, .tick⟩]
    cases hread.symm.trans hcontents
    obtain rfl := List.mem_singleton.mp hr
    decide
  snapshots := h

/-- A snapshot covers what the first segment held. -/
theorem recover_serves_whole_iff_sample :
    ServesWhole Bincode.codec (.sample 0) (Dir.beheaded sampleSnapshots) sampleHistory ↔
      ∀ records, Bincode.codec.readAll (Dir.beheaded sampleSnapshots) = .ok records →
        HeadCovered records sampleSnapshots.latestUsable :=
  recover_serves_whole_iff (n := 3) (Dir.beheaded_remains sampleSnapshots_of) rfl

/-- **With the first segment gone and no snapshot, recovery serves a pending auction** at the
position where the history has a live one. -/
theorem beheaded_log_served :
    Remains Bincode.codec (.sample 0) (Dir.beheaded OrdMap.empty) sampleHistory ∧
      ¬ServesWhole Bincode.codec (.sample 0) (Dir.beheaded OrdMap.empty) sampleHistory ∧
      ∃ r s, Bincode.codec.recover (Dir.beheaded OrdMap.empty) = some (.ok r) ∧
        fullReplay (.sample 0) (sampleHistory.take r.nextSeq.val) = some s ∧
        r.state.status = .pending ∧ s.status = .live := by
  have hremains : Remains Bincode.codec (.sample 0) (Dir.beheaded OrdMap.empty) sampleHistory :=
    Dir.beheaded_remains fun k s hmem ↦ absurd hmem List.not_mem_nil
  obtain ⟨state, next, hrecover, hstate, hnext⟩ := hremains.recover_fresh (n := 3)
    (a := 2) rfl (Dir.beheaded_reads _) (fun s hs ↦ absurd hs (Option.not_mem_none s)) (by decide)
    (by decide)
  have hthree : next.val = 3 := hnext
  have hpending : state.status = .pending := by
    have h : (fullReplay (.sample 0) [⟨2, 0, .tick⟩]).map AuctionState.status =
        some .pending := rfl
    rw [hstate] at h
    exact Option.some.inj h
  obtain ⟨s, hs⟩ := hremains.replays 3
  have hlive : s.status = .live := by
    have h : (fullReplay (.sample 0) (sampleHistory.take 3)).map AuctionState.status =
        some .live := rfl
    rw [hs] at h
    exact Option.some.inj h
  refine ⟨hremains, fun hserves ↦ ?_, _, s, hrecover, hthree ▸ hs, hpending, hlive⟩
  obtain ⟨-, hfull, -⟩ := hserves _ hrecover
  rw [show (Recovered.nextSeq _).val = 3 from hthree, hs] at hfull
  cases hfull
  rw [hpending] at hlive
  cases hlive

end DutchAuction
