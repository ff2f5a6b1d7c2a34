import DutchAuction.Wal.Checksum
import DutchAuction.Wal.Disk
import DutchAuction.Wal.StateLayout

/-!
# The bytes of a snapshot

A snapshot file is a position and the state after it, serialized, and then the checksum of that. A
file reads as a snapshot exactly if it is that: a body that decodes, with its checksum behind it
(`read_eq_ok`). So what was written of any state that fits is read back (`read_encode`), and a
checksum that detects bursts covers itself too: a file altered anywhere within 32 consecutive bits,
its checksum included, is not read (`read_of_burst`). Nor is one that breaks off anywhere: what is
left of the body is refused, whatever is taken for its checksum (`read_of_torn`).
-/

namespace DutchAuction

open Crc (bits checked)
open Serial (ofLE)

/-! ## Files

The checksum stands behind the body here, not in a header, and a file that does not check is as
good as one that is not there. -/

namespace SnapshotFile

/-- What is written of the state after `seq`. -/
def encode (sc : SnapshotCodec) (seq : Seq) (image : StateImage) : List UInt8 :=
  checked sc.hash (sc.serialize seq image)

/-- Write a snapshot of a state at its last applied sequence. There is none of a state that has had
nothing applied to it. -/
def write (sc : SnapshotCodec) (image : StateImage) : Option (Seq × List UInt8) :=
  image.lastSeq.map fun seq ↦ (seq, encode sc seq image)

/-- Read one snapshot file, verifying its checksum. -/
def read (sc : SnapshotCodec) (bytes : List UInt8) : Except String Snapshot :=
  if bytes.length < 4 then .error "shorter than its checksum"
  else
    let split := bytes.length - 4
    let body := bytes.take split
    let expected := ofLE (bytes.drop split)
    if (sc.hash body).toNat ≠ expected then .error "checksum mismatch"
    else
      match sc.deserialize body with
      | .ok r => .ok ⟨r.1, r.2.state⟩
      | .error detail => .error detail

variable {sc : SnapshotCodec} {seq : Seq} {image : StateImage} {bytes : List UInt8}

/-! ### What is read

A file of four bytes or more is a body and four bytes behind it, which are its checksum or are not.
-/

theorem read_of_length_lt (h : bytes.length < 4) :
    read sc bytes = .error "shorter than its checksum" := if_pos h

theorem read_checked (body : List UInt8) :
    read sc (checked sc.hash body) =
      match sc.deserialize body with
      | .ok r => .ok ⟨r.1, r.2.state⟩
      | .error detail => .error detail := by
  have hlen : (Serial.toLE 4 (sc.hash body).toNat).length = 4 := Serial.length_toLE _ _
  have hbound : (sc.hash body).toNat < 256 ^ 4 := UInt32.toNat_lt _
  unfold read
  dsimp only
  rw [Crc.length_checked, if_neg (by omega), Nat.add_sub_cancel, checked, List.take_left' rfl,
    List.drop_left' rfl, Serial.ofLE_toLE hbound, if_neg (not_not_intro rfl)]

theorem read_of_unchecked (hlen : 4 ≤ bytes.length) (h : ∀ body, bytes ≠ checked sc.hash body) :
    read sc bytes = .error "checksum mismatch" := by
  rw [read, if_neg (by omega)]
  refine if_pos fun hcrc ↦ h (bytes.take (bytes.length - 4)) ?_
  have htail : (bytes.drop (bytes.length - 4)).length = 4 := by
    rw [List.length_drop]
    omega
  have hword := Serial.toLE_ofLE (bytes.drop (bytes.length - 4))
  rw [htail, ← hcrc] at hword
  rw [checked, hword, List.take_append_drop]

/-- **A file reads as a snapshot** if and only if it is a body that decodes to it, with its checksum
behind it. -/
theorem read_eq_ok {s : Snapshot} :
    read sc bytes = .ok s ↔ ∃ body image, bytes = checked sc.hash body ∧
      sc.deserialize body = .ok (s.seq, image) ∧ image.state = s.state := by
  constructor
  · intro hread
    by_cases hbody : ∃ body, bytes = checked sc.hash body
    · obtain ⟨body, rfl⟩ := hbody
      rw [read_checked] at hread
      cases hdecoded : sc.deserialize body with
      | error detail =>
        rw [hdecoded] at hread
        cases hread
      | ok r =>
        rw [hdecoded] at hread
        cases hread
        exact ⟨body, r.2, rfl, hdecoded, rfl⟩
    · rcases Nat.lt_or_ge bytes.length 4 with hshort | hlen
      · rw [read_of_length_lt hshort] at hread
        cases hread
      · rw [read_of_unchecked hlen (not_exists.mp hbody)] at hread
        cases hread
  · rintro ⟨body, image, rfl, hdecoded, hstate⟩
    rw [read_checked, hdecoded]
    dsimp only
    rw [hstate]

/-- **What was written is read back.** -/
theorem read_encode (hsc : sc.Lawful) (h : image.Fits) :
    read sc (encode sc seq image) = .ok ⟨seq, image.state⟩ :=
  read_eq_ok.mpr ⟨_, image, rfl, hsc.round_trip seq image h, rfl⟩

/-- **A file altered within 32 consecutive bits is not read**, wherever they are. -/
theorem read_of_burst (hcrc : Crc.DetectsBursts sc.hash)
    (h : Crc.Burst 32 (bits (encode sc seq image)) (bits bytes)) :
    read sc bytes = .error "checksum mismatch" := by
  refine read_of_unchecked ?_ ?_
  · rw [← h.bytes_length_eq, encode, Crc.length_checked]
    exact Nat.le_add_left 4 _
  · rintro body rfl
    exact hcrc _ body h

/-- **A file that was cut short is not read**, wherever it breaks off. -/
theorem read_of_torn (htorn : sc.RefusesTorn) (h : image.Fits)
    (hfront : bytes <+: encode sc seq image) (hne : bytes ≠ encode sc seq image) (s : Snapshot) :
    read sc bytes ≠ .ok s := by
  intro hread
  obtain ⟨body, image', rfl, hdecoded, -⟩ := read_eq_ok.mp hread
  -- What is left of the body is a proper first part of it, whatever the four bytes behind it are.
  have hlt : body.length < (sc.serialize seq image).length := by
    have hle := hfront.length_le
    have hlen : (checked sc.hash body).length ≠ (encode sc seq image).length := fun heq ↦
      hne (hfront.eq_of_length heq)
    rw [encode, Crc.length_checked, Crc.length_checked] at hle hlen
    omega
  have hbody : body <+: sc.serialize seq image :=
    List.prefix_of_prefix_length_le ((List.prefix_append body _).trans hfront)
      (List.prefix_append _ _) hlt.le
  obtain ⟨detail, herror⟩ := htorn seq image body h hbody fun heq ↦ absurd (heq ▸ hlt) (lt_irrefl _)
  cases herror.symm.trans hdecoded

/-! ## Every state of a run -/

/-- **A snapshot of any state of a run is exact.** The state has one image, the file that is written
of it reads as that state under its position, and no file that differs from it within 32 consecutive
bits, or breaks off before its end, reads at all. -/
theorem snapshot_exact (hsc : sc.Lawful) (htorn : sc.RefusesTorn) (hcrc : Crc.DetectsBursts sc.hash)
    {config : AuctionConfig} {tr : List Transition} {s : AuctionState}
    (hrun : Run config tr s) (hlen : tr.length < 2 ^ 64) (hlast : s.lastSeq = some seq) :
    ∃ image : StateImage, (∀ i : StateImage, i.state = s ↔ i = image) ∧
      ∃ bytes, write sc image = some (seq, bytes) ∧ read sc bytes = .ok ⟨seq, s⟩ ∧
        (∀ bytes', Crc.Burst 32 (bits bytes) (bits bytes') →
          read sc bytes' = .error "checksum mismatch") ∧
        ∀ bytes', bytes' <+: bytes → bytes' ≠ bytes → ∀ s', read sc bytes' ≠ .ok s' := by
  obtain ⟨image, rfl, hfits⟩ := run_image hrun hlen
  have hwrite : write sc image = some (seq, encode sc seq image) := by
    have hseq : image.lastSeq = some seq := hlast
    rw [write, hseq, Option.map_some]
  exact ⟨image, fun i ↦ StateImage.state_injective.eq_iff, encode sc seq image, hwrite,
    read_encode hsc hfits, fun bytes' ↦ read_of_burst hcrc, fun bytes' ↦ read_of_torn htorn hfits⟩

/-- The snapshot of the auction that clears. -/
theorem snapshot_exact_sample :
    ∃ bytes, read Bincode.snapshotCodec bytes = .ok ⟨6, (play (.sample 0) sampleRecords).2⟩ := by
  have hlast : (play (.sample 0) sampleRecords).2.lastSeq = some 6 := by decide
  obtain ⟨-, -, bytes, -, hread, -⟩ := snapshot_exact Bincode.snapshot_lawful
    Bincode.snapshot_refusesTorn Bincode.crc32_detects (run_play (.sample 0) sampleRecords)
    (by decide) hlast
  exact ⟨bytes, hread⟩

/-! ## A directory of files

What damages a file leaves something that does not read, so the newest undamaged file is the newest
that reads, and the theorem on honest disks applies. -/

/-- What reading the files gives. -/
def snapshots (sc : SnapshotCodec) (files : OrdMap Seq (List UInt8)) : Snapshots where
  entries := files.entries.map fun e ↦ (e.1, read sc e.2)
  sorted := List.pairwise_map.mpr files.sorted

variable {config : AuctionConfig} {history : List LogRecord} {files : OrdMap Seq (List UInt8)}
  {k : Seq}

theorem mem_snapshots {file : Except String Snapshot} :
    (k, file) ∈ (snapshots sc files).entries ↔
      ∃ bytes, (k, bytes) ∈ files.entries ∧ read sc bytes = file := by
  constructor
  · intro h
    obtain ⟨⟨k', bytes⟩, hmem, heq⟩ := List.mem_map.mp h
    obtain ⟨rfl, rfl⟩ := Prod.mk.inj heq
    exact ⟨bytes, hmem, rfl⟩
  · rintro ⟨bytes, hmem, rfl⟩
    exact List.mem_map_of_mem hmem

/-- What was written of the state after record `k` of a history. -/
def Whole (sc : SnapshotCodec) (config : AuctionConfig) (history : List LogRecord) (k : Seq)
    (bytes : List UInt8) : Prop :=
  k.val < history.length ∧ ∃ image : StateImage,
    fullReplay config (history.take (k.val + 1)) = some image.state ∧ bytes = encode sc k image

/-- It was altered within 32 consecutive bits, or it breaks off, or what is there is no body that
decodes with its checksum behind it. -/
def Damaged (sc : SnapshotCodec) (config : AuctionConfig) (history : List LogRecord) (k : Seq)
    (bytes : List UInt8) : Prop :=
  (∃ whole, Whole sc config history k whole ∧
      (Crc.Burst 32 (bits whole) (bits bytes) ∨ bytes <+: whole ∧ bytes ≠ whole)) ∨
    ∀ body, bytes = checked sc.hash body → ∃ detail, sc.deserialize body = .error detail

theorem fits_of_replay {n : Seq} {m : ℕ} (hn : history.length = n.val)
    (hstate : fullReplay config (history.take m) = some image.state) : image.Fits := by
  obtain ⟨tr, hrun, hinputs⟩ := applyAll_run hstate
  have hlen : tr.length < 2 ^ 64 := by
    have hinput := congrArg List.length hinputs
    have hbound := n.val_lt
    rw [List.length_map, List.length_take] at hinput
    omega
  obtain ⟨image', heq, hfits⟩ := run_image hrun hlen
  obtain rfl := StateImage.state_injective heq
  exact hfits

theorem Damaged.not_read (htorn : sc.RefusesTorn) (hcrc : Crc.DetectsBursts sc.hash) {n : Seq}
    (h : Damaged sc config history k bytes) (hn : history.length = n.val) (s : Snapshot) :
    SnapshotFile.read sc bytes ≠ .ok s := by
  rcases h with ⟨whole, ⟨-, image, hstate, rfl⟩, hburst | ⟨hfront, hne⟩⟩ | hnone
  · rw [read_of_burst hcrc hburst]
    exact fun herror ↦ by cases herror
  · exact read_of_torn htorn (fits_of_replay hn hstate) hfront hne s
  · intro hread
    obtain ⟨body, image, heq, hdecoded, -⟩ := read_eq_ok.mp hread
    obtain ⟨detail, herror⟩ := hnone body heq
    cases herror.symm.trans hdecoded

theorem Whole.read (hsc : sc.Lawful) {n : Seq} (h : Whole sc config history k bytes)
    (hn : history.length = n.val) :
    ∃ s, SnapshotFile.read sc bytes = .ok s ∧ s.seq = k ∧
      fullReplay config (history.take (k.val + 1)) = some s.state := by
  obtain ⟨hlt, image, hstate, rfl⟩ := h
  exact ⟨_, read_encode hsc (fits_of_replay hn hstate), rfl, hstate⟩

/-- **Damage to snapshots costs nothing but time.** Of a whole log, and snapshot files each of which
is what was written of the state after some record or that file damaged, recovery gives what a full
replay gives. It starts from the newest file that was not damaged, if there is one. -/
theorem recover_from_files (hsc : sc.Lawful) (htorn : sc.RefusesTorn)
    (hcrc : Crc.DetectsBursts sc.hash) {c : Codec} {dir : Dir} {records : List LogRecord} {n : Seq}
    (hmanifest : dir.manifest = some (.ok config)) (hlog : c.readAll dir = .ok records)
    (hnum : NumberedFrom 0 records) (hn : records.length = n.val)
    (hfiles : ∀ k bytes, (k, bytes) ∈ files.entries →
      Whole sc config records k bytes ∨ Damaged sc config records k bytes) :
    ∃ r, c.recover { dir with snaps := snapshots sc files } = some (.ok r) ∧
      fullReplay config records = some r.state ∧ r.nextSeq = n ∧
      (∀ k ∈ r.fromSnapshot, ∃ bytes, (k, bytes) ∈ files.entries ∧
        Whole sc config records k bytes) ∧
      ∀ k bytes, (k, bytes) ∈ files.entries → Whole sc config records k bytes →
        ∃ k' ∈ r.fromSnapshot, k ≤ k' := by
  have hwhole : ∀ k bytes s, (k, bytes) ∈ files.entries → read sc bytes = .ok s →
      Whole sc config records k bytes := fun k bytes s hmem hread ↦
    (hfiles k bytes hmem).resolve_right fun hdamaged ↦ hdamaged.not_read htorn hcrc hn s hread
  have hof : (snapshots sc files).Of config records := by
    intro k s hmem
    obtain ⟨bytes, hbytes, hread⟩ := mem_snapshots.mp hmem
    have hfile := hwhole k bytes s hbytes hread
    obtain ⟨s', hread', rfl, hstate⟩ := hfile.read hsc hn
    rw [hread] at hread'
    obtain rfl := Except.ok.inj hread'
    exact ⟨rfl, hfile.1, hstate⟩
  have hused : ∀ s ∈ (snapshots sc files).latestUsable, ¬EndsBefore records s := by
    rintro s hs ⟨r, hr, hbefore⟩
    have hlt := (hof.latestUsable hs).2.1
    have hlast := hnum.getLast? hr
    have hseq : r.seq.val < s.seq.val := hbefore
    omega
  obtain ⟨r, hrecover, hstate, hnext, hfrom⟩ := recoverFrom_honest hnum hn
    fun s hs ↦ Or.inr (hof.latestUsable hs).2
  have hmanifest : { dir with snaps := snapshots sc files }.manifest = some (.ok config) :=
    hmanifest
  refine ⟨r, (Codec.recover_eq hmanifest hlog).trans hrecover, hstate, hnext, ?_⟩
  rcases hfrom with ⟨hnone, -, hignored⟩ | ⟨s, hs, -, hsome, -⟩
  · rw [hnone]
    refine ⟨fun k hk ↦ absurd hk (Option.not_mem_none k), fun k bytes hbytes hfile ↦ ?_⟩
    obtain ⟨s, hs, -, -⟩ := hfile.read hsc hn
    have hlatest : (snapshots sc files).latestUsable = none :=
      Option.eq_none_iff_forall_not_mem.mpr fun s hs ↦ hused s hs (hignored s hs)
    exact absurd (mem_snapshots.mpr ⟨bytes, hbytes, hs⟩)
      (Snapshots.latestUsable_eq_none hlatest k s)
  · obtain ⟨⟨s', hmem⟩, hnewest⟩ := (hof.latestUsable hs).1
    rw [hsome]
    refine ⟨fun k hk ↦ ?_, fun k bytes hbytes hfile ↦ ?_⟩
    · obtain rfl := Option.some.inj hk
      obtain ⟨bytes, hbytes, hread⟩ := mem_snapshots.mp hmem
      exact ⟨bytes, hbytes, hwhole _ bytes s' hbytes hread⟩
    · obtain ⟨t, ht, -, -⟩ := hfile.read hsc hn
      exact ⟨s.seq, rfl, hnewest k t (mem_snapshots.mpr ⟨bytes, hbytes, ht⟩)⟩

/-- An auction that was opened and ticked once. -/
def sampleImage : StateImage := (play (.sample 0) (sampleHistory.take 2)).2.image [] []

/-- The auction once it was ticked again. -/
def laterImage : StateImage := (play (.sample 0) (sampleHistory.take 3)).2.image [] []

/-- What is left of two snapshots of it: all of the first and the first eleven bytes of the
second. -/
def sampleFiles : OrdMap Seq (List UInt8) :=
  (OrdMap.empty.upsert 1 fun _ ↦ encode Bincode.snapshotCodec 1 sampleImage).upsert 2
    fun _ ↦ (encode Bincode.snapshotCodec 2 laterImage).take 11

theorem sampleImage_state :
    fullReplay (.sample 0) (sampleHistory.take 2) = some sampleImage.state := rfl

theorem whole_sample :
    Whole Bincode.snapshotCodec (.sample 0) sampleHistory 1
      (encode Bincode.snapshotCodec 1 sampleImage) :=
  ⟨by decide, sampleImage, sampleImage_state, rfl⟩

theorem damaged_sample :
    Damaged Bincode.snapshotCodec (.sample 0) sampleHistory 2
      ((encode Bincode.snapshotCodec 2 laterImage).take 11) := by
  refine Or.inl ⟨_, ⟨by decide, laterImage, rfl, rfl⟩, Or.inr ⟨List.take_prefix _ _, fun heq ↦ ?_⟩⟩
  -- The position alone is eight bytes, and the checksum four.
  have hlen := congrArg List.length heq
  have hword : (Bincode.u64.put 2).length = 8 := rfl
  have hbody : (Bincode.snapshotCodec.serialize 2 laterImage).length =
      (Bincode.u64.put 2).length + (Bincode.stateImage.put laterImage).length := by
    show (Bincode.u64.put 2 ++ Bincode.stateImage.put laterImage).length = _
    rw [List.length_append]
  rw [List.length_take, encode, Crc.length_checked, hbody, hword] at hlen
  omega

theorem recover_from_files_sample :
    ∃ r, Bincode.codec.recover
        { Dir.rolled with snaps := snapshots Bincode.snapshotCodec sampleFiles } = some (.ok r) ∧
      fullReplay (.sample 0) sampleHistory = some r.state ∧ r.nextSeq = 3 ∧
      ∃ k' ∈ r.fromSnapshot, 1 ≤ k' := by
  have hfiles : ∀ k bytes, (k, bytes) ∈ sampleFiles.entries →
      Whole Bincode.snapshotCodec (.sample 0) sampleHistory k bytes ∨
        Damaged Bincode.snapshotCodec (.sample 0) sampleHistory k bytes := by
    intro k bytes hmem
    rcases List.mem_cons.mp hmem with heq | hmem
    · obtain ⟨rfl, rfl⟩ := Prod.mk.inj heq
      exact Or.inl whole_sample
    · obtain ⟨rfl, rfl⟩ := Prod.mk.inj (List.mem_singleton.mp hmem)
      exact Or.inr damaged_sample
  obtain ⟨r, hrecover, hstate, hnext, -, hnewest⟩ := recover_from_files Bincode.snapshot_lawful
    Bincode.snapshot_refusesTorn Bincode.crc32_detects (n := 3) rfl Dir.rolled_reads (by decide) rfl
    hfiles
  exact ⟨r, hrecover, hstate, hnext, hnewest 1 _ List.mem_cons_self whole_sample⟩

end SnapshotFile

end DutchAuction
