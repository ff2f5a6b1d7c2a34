import DutchAuction.Wal.Folder

/-!
# The calls on files

A call on the segments or on the snapshots of a directory is a call on one file or two. A new
snapshot is written under a temporary name, and counts from when it is renamed; nothing that is
found under a temporary name is read. What is renamed then has to be all of what was to be written,
and it is, because the calls before it have been made (`Prepared`).

So a folder of files and the directory of the model go on in step through any calls of the thread
that writes the log and the thread that saves a state, in any order, and wherever the process is
killed (`Presents.left`). Recovery from the files, in whatever order they are listed, is recovery of
the directory in the model (`files_refine`).
-/

namespace DutchAuction

open SnapshotFile (sampleImage)

/-- A call on a file. -/
inductive FileCall
  /-- Create a file, or empty the one that is there. -/
  | create (name : Name)
  /-- Write at the end of the file, which is created if it is not there. -/
  | append (name : Name) (bytes : List UInt8)
  | setLen (name : Name) (len : ℕ)
  | sync (name : Name)
  /-- Move a file to another name, in place of the file of that name. -/
  | rename (name name' : Name)
  | remove (name : Name)

namespace FileCall

def apply : FileCall → Folder → Folder
  | create name, f => Function.update f name (some [])
  | append name bytes, f => Function.update f name (some ((f name).getD [] ++ bytes))
  | setLen name len, f => Function.update f name (some (((f name).getD []).take len))
  | sync _, f => f
  | rename name name', f => Function.update (Function.update f name' (f name)) name none
  | remove name, f => Function.update f name none

/-- A write that is cut off has written `n` bytes. -/
def cut (n : ℕ) : FileCall → Folder → Folder
  | append name bytes, f => (append name (bytes.take n)).apply f
  | create _, f | setLen _ _, f | sync _, f | rename _ _, f | remove _, f => f

end FileCall

/-- The calls on files, whole and cut off. -/
def fileCalls : Interrupted.Effect Folder FileCall := ⟨FileCall.apply, FileCall.cut⟩

/-- A call on the segments or on the snapshots. -/
inductive DirCall
  | seg (call : SegCall)
  | snap (call : SnapCall)

namespace DirCall

def apply : DirCall → Dir → Dir
  | seg call, dir => { dir with segs := call.apply dir.segs }
  | snap call, dir => { dir with snaps := call.apply dir.snaps }

def cut (n : ℕ) : DirCall → Dir → Dir
  | seg call, dir => { dir with segs := call.cut n dir.segs }
  | snap _, dir => dir

/-- The call on snapshots that it is, if it is one. -/
def snap? : DirCall → Option SnapCall
  | seg _ => none
  | snap call => some call

/-- The call on files that it is, where a snapshot is written as `bytes`. -/
def file (bytes : Seq → AuctionState → List UInt8) : DirCall → FileCall
  | seg (.write index bytes) => .append (segmentPath index) bytes
  | seg (.setLen index len) => .setLen (segmentPath index) len
  | seg (.sync index) => .sync (segmentPath index)
  | snap (.createTemp seq) => .create (partialPath seq)
  | snap (.writeTemp seq state) => .append (partialPath seq) (bytes seq state)
  | snap (.syncTemp seq) => .sync (partialPath seq)
  | snap (.rename seq _) => .rename (partialPath seq) (snapshotPath seq)
  | snap (.remove seq) => .remove (snapshotPath seq)

theorem filterMap_snap (calls : List SnapCall) : (calls.map snap).filterMap snap? = calls := by
  rw [List.filterMap_map]
  exact List.filterMap_some

end DirCall

/-- The calls on a directory, whole and cut off. -/
def dirCalls : Interrupted.Effect Dir DirCall := ⟨DirCall.apply, DirCall.cut⟩

/-! ## Temporary files

Saving creates a file under a temporary name, writes it, syncs it and renames it, so by the time it
is renamed it is all of what was to be written. -/

/-- The temporary files, by the position of the state that is written to them. -/
abbrev Temps := Seq → Option (List UInt8)

/-- What a call does to the temporary files. -/
def SnapCall.temps (bytes : Seq → AuctionState → List UInt8) : SnapCall → Temps → Temps
  | createTemp seq, temps => Function.update temps seq (some [])
  | writeTemp seq state, temps =>
    Function.update temps seq (some ((temps seq).getD [] ++ bytes seq state))
  | syncTemp _, temps | remove _, temps => temps
  | rename seq _, temps => Function.update temps seq none

/-- A temporary file that is renamed reads as the snapshot that it is to be. -/
def SnapCall.Ready (sc : SnapshotCodec) (temps : Temps) : SnapCall → Prop
  | rename seq state =>
    (temps seq).map (SnapshotFile.read sc) = some (.ok ⟨seq, state⟩)
  | createTemp _ | writeTemp _ _ | syncTemp _ | remove _ => True

/-- Whenever it is the turn of one of these calls it is ready. -/
def Prepared (sc : SnapshotCodec) (bytes : Seq → AuctionState → List UInt8) :
    Temps → List SnapCall → Prop
  | _, [] => True
  | temps, call :: calls =>
    call.Ready sc temps ∧ Prepared sc bytes (call.temps bytes temps) calls

/-- What is written of a state, where its image is known. -/
def SnapshotFile.written (sc : SnapshotCodec) (image : StateImage) :
    Seq → AuctionState → List UInt8 :=
  fun seq _ ↦ encode sc seq image

variable {sc : SnapshotCodec} {bytes : Seq → AuctionState → List UInt8}

theorem prepared_remove (temps : Temps) (l : List (Seq × Except String Snapshot)) :
    Prepared sc bytes temps (l.map fun e ↦ .remove e.1) := by
  induction l with
  | nil => trivial
  | cons e l ih => exact ⟨trivial, ih⟩

/-- **Saving a state is prepared** if what is written of it reads as the state: the file is created,
written and synced before it is renamed. -/
theorem prepared_save {state : AuctionState}
    (hread : ∀ seq, SnapshotFile.read sc (bytes seq state) = .ok ⟨seq, state⟩) (temps : Temps)
    (snaps : Snapshots) : Prepared sc bytes temps (snaps.saveCalls state) := by
  rw [Snapshots.saveCalls, Snapshots.writeCalls]
  cases state.lastSeq with
  | none => exact prepared_remove _ _
  | some seq =>
    refine ⟨trivial, trivial, trivial, ?_, prepared_remove _ _⟩
    have hwritten : SnapCall.temps bytes (.writeTemp seq state)
        (SnapCall.temps bytes (.createTemp seq) temps) seq = some (bytes seq state) := by
      rw [SnapCall.temps, SnapCall.temps, Function.update_self, Function.update_self]
      rfl
    exact (congrArg (Option.map (SnapshotFile.read sc)) hwritten).trans
      (congrArg some (hread seq))

namespace Folder

variable {fromSlice : List UInt8 → Except String AuctionConfig} {f f' : Folder} {dir : Dir}

/-- The temporary files of a folder. -/
def temps (f : Folder) : Temps := fun seq ↦ f (partialPath seq)

/-! ## One file changes

The names of the files begin or end with different characters, so what is done to one of them is
done to one part of the directory. -/

theorem update_of_ends {name name' : Name} (h : name.ends ≠ name'.ends) (f : Folder)
    (v : Option (List UInt8)) : Function.update f name' v name = f name :=
  Function.update_of_ne (fun heq ↦ h (congrArg Name.ends heq)) _ _

theorem temps_update {name : Name} (h : name.ends ≠ (some 's', some 'l'))
    (v : Option (List UInt8)) : temps (Function.update f name v) = temps f :=
  funext fun seq ↦ update_of_ends (by rw [ends_partialPath]; exact h.symm) f v

theorem temps_update_temp (seq : Seq) (v : Option (List UInt8)) :
    temps (Function.update f (partialPath seq) v) = Function.update (temps f) seq v :=
  funext fun k ↦ by
    by_cases hk : k = seq
    · rw [hk, Function.update_self, temps, Function.update_self]
    · rw [Function.update_of_ne hk, temps, temps,
        Function.update_of_ne fun heq ↦ hk (partialPath_injective heq)]

namespace Presents

theorem empty : Presents fromSlice sc (fun _ ↦ none) Dir.empty where
  manifest := rfl
  segs _ := rfl
  snaps _ := rfl
  segment _ hthere := absurd rfl hthere
  snapshot _ hthere := absurd rfl hthere

theorem update_manifest (h : Presents fromSlice sc f dir) (bytes : List UInt8) :
    Presents fromSlice sc (Function.update f MANIFEST (some bytes))
      { dir with manifest := some (fromSlice bytes) } where
  manifest := by rw [Function.update_self, Option.map_some]
  segs index := by
    rw [update_of_ends (by rw [ends_segmentPath, ends_manifest]; decide)]
    exact h.segs index
  snaps seq := by
    rw [update_of_ends (by rw [ends_snapshotPath, ends_manifest]; decide)]
    exact h.snaps seq
  segment name hthere hfound := by
    rw [update_of_ends (by rw [ends_of_segmentIndex hfound, ends_manifest]; decide)] at hthere
    exact h.segment name hthere hfound
  snapshot name hthere hfound := by
    rw [update_of_ends (by rw [ends_of_snapshotSeq hfound, ends_manifest]; decide)] at hthere
    exact h.snapshot name hthere hfound

theorem update_segment (h : Presents fromSlice sc f dir) (index : ℕ)
    (g : Option (List UInt8) → List UInt8) :
    Presents fromSlice sc
      (Function.update f (segmentPath index) (some (g (f (segmentPath index)))))
      { dir with segs := dir.segs.upsert index g } where
  manifest := by
    rw [update_of_ends (by rw [ends_manifest, ends_segmentPath]; decide)]
    exact h.manifest
  segs index' := by
    rw [OrdMap.get?_upsert, ← h.segs]
    split_ifs with heq
    · rw [heq, Function.update_self]
    · rw [Function.update_of_ne fun hpath ↦ heq (segmentPath_injective hpath)]
      exact h.segs index'
  snaps seq := by
    rw [update_of_ends (by rw [ends_snapshotPath, ends_segmentPath]; decide)]
    exact h.snaps seq
  segment name hthere hfound := by
    by_cases hname : name = segmentPath index
    · exact ⟨index, hname⟩
    · rw [Function.update_of_ne hname] at hthere
      exact h.segment name hthere hfound
  snapshot name hthere hfound := by
    rw [update_of_ends (by rw [ends_of_snapshotSeq hfound, ends_segmentPath]; decide)] at hthere
    exact h.snapshot name hthere hfound

theorem update_temp (h : Presents fromSlice sc f dir) (seq : Seq)
    (v : Option (List UInt8)) :
    Presents fromSlice sc (Function.update f (partialPath seq) v) dir where
  manifest := by
    rw [update_of_ends (by rw [ends_manifest, ends_partialPath]; decide)]
    exact h.manifest
  segs index := by
    rw [update_of_ends (by rw [ends_segmentPath, ends_partialPath]; decide)]
    exact h.segs index
  snaps k := by
    rw [update_of_ends (by rw [ends_snapshotPath, ends_partialPath]; decide)]
    exact h.snaps k
  segment name hthere hfound := by
    rw [update_of_ends (by rw [ends_of_segmentIndex hfound, ends_partialPath]; decide)] at hthere
    exact h.segment name hthere hfound
  snapshot name hthere hfound := by
    rw [update_of_ends (by rw [ends_of_snapshotSeq hfound, ends_partialPath]; decide)] at hthere
    exact h.snapshot name hthere hfound

theorem update_snapshot (h : Presents fromSlice sc f dir) (seq : Seq)
    (v : Option (List UInt8)) {snaps : Snapshots}
    (hself : snaps.get? seq = v.map (SnapshotFile.read sc))
    (hother : ∀ k ≠ seq, snaps.get? k = dir.snaps.get? k) :
    Presents fromSlice sc (Function.update f (snapshotPath seq) v)
      { dir with snaps := snaps } where
  manifest := by
    rw [update_of_ends (by rw [ends_manifest, ends_snapshotPath]; decide)]
    exact h.manifest
  segs index := by
    rw [update_of_ends (by rw [ends_segmentPath, ends_snapshotPath]; decide)]
    exact h.segs index
  snaps k := by
    by_cases heq : k = seq
    · rw [heq, Function.update_self, hself]
    · rw [Function.update_of_ne fun hpath ↦ heq (snapshotPath_injective hpath), hother k heq]
      exact h.snaps k
  segment name hthere hfound := by
    rw [update_of_ends (by rw [ends_of_segmentIndex hfound, ends_snapshotPath]; decide)] at hthere
    exact h.segment name hthere hfound
  snapshot name hthere hfound := by
    by_cases hname : name = snapshotPath seq
    · exact ⟨seq, hname⟩
    · rw [Function.update_of_ne hname] at hthere
      exact h.snapshot name hthere hfound

/-! ## Calls -/

/-- **A call on the files is the call on the directory**, if what is renamed is ready. -/
theorem step (h : Presents fromSlice sc f dir) (call : DirCall)
    (hready : ∀ snap ∈ call.snap?, snap.Ready sc (temps f)) :
    Presents fromSlice sc ((call.file bytes).apply f) (call.apply dir) := by
  cases call with
  | seg call =>
    cases call with
    | write index written => exact h.update_segment index fun old ↦ old.getD [] ++ written
    | setLen index len => exact h.update_segment index fun old ↦ (old.getD []).take len
    | sync index => exact h
  | snap call =>
    cases call with
    | createTemp seq => exact h.update_temp seq _
    | writeTemp seq state => exact h.update_temp seq _
    | syncTemp seq => exact h
    | rename seq state =>
      have hread : (f (partialPath seq)).map (SnapshotFile.read sc) =
          some (.ok ⟨seq, state⟩) := hready _ rfl
      refine (h.update_snapshot seq (f (partialPath seq)) ?_ fun k hk ↦ ?_).update_temp seq none
      · rw [hread, SnapCall.apply, OrdMap.get?_upsert, if_pos rfl]
      · rw [SnapCall.apply, OrdMap.get?_upsert, if_neg hk]
    | remove seq =>
      have hget := OrdMap.get?_filter_ne dir.snaps (k := seq) fun e ↦ decide_eq_true_iff
      refine h.update_snapshot seq none ?_ fun k hk ↦ ?_
      · exact (hget seq).trans (if_pos rfl)
      · exact (hget k).trans (if_neg hk)

theorem cut (h : Presents fromSlice sc f dir) (n : ℕ) (call : DirCall) :
    Presents fromSlice sc ((call.file bytes).cut n f) (call.cut n dir) := by
  cases call with
  | seg call =>
    cases call with
    | write index written => exact h.update_segment index fun old ↦ old.getD [] ++ written.take n
    | setLen index len => exact h
    | sync index => exact h
  | snap call =>
    cases call with
    | writeTemp seq state => exact h.update_temp seq _
    | createTemp seq => exact h
    | syncTemp seq => exact h
    | rename seq state => exact h
    | remove seq => exact h

end Presents

theorem temps_step (call : DirCall) (f : Folder) :
    temps ((call.file bytes).apply f) =
      (call.snap?.elim id (SnapCall.temps bytes)) (temps f) := by
  cases call with
  | seg call =>
    cases call with
    | write index written => exact temps_update (by rw [ends_segmentPath]; decide) _
    | setLen index len => exact temps_update (by rw [ends_segmentPath]; decide) _
    | sync index => rfl
  | snap call =>
    cases call with
    | createTemp seq => exact temps_update_temp seq _
    | writeTemp seq state => exact temps_update_temp seq _
    | syncTemp seq => rfl
    | rename seq state =>
      have hsame : temps (Function.update f (snapshotPath seq) (f (partialPath seq))) = temps f :=
        temps_update (by rw [ends_snapshotPath]; decide) _
      refine (temps_update_temp seq none).trans ?_
      rw [hsame]
      rfl
    | remove seq => exact temps_update (by rw [ends_snapshotPath]; decide) _

/-- **In step, wherever the process is killed.** What is left of the files when some calls of the
two threads were to be made is the directory that is left in the model. -/
theorem Presents.left {calls : List DirCall} (h : Presents fromSlice sc f dir)
    (hprepared : Prepared sc bytes (temps f) (calls.filterMap DirCall.snap?))
    (hleft : fileCalls.Left (calls.map (DirCall.file bytes)) f f') :
    ∃ dir', dirCalls.Left calls dir dir' ∧ Presents fromSlice sc f' dir' := by
  induction calls generalizing f dir with
  | nil =>
    rw [Interrupted.Effect.left_nil.mp hleft]
    exact ⟨dir, Interrupted.Effect.Left.before _ _, h⟩
  | cons call calls ih =>
    have hcall : (∀ snap ∈ call.snap?, snap.Ready sc (temps f)) ∧
        Prepared sc bytes (temps ((call.file bytes).apply f))
          (calls.filterMap DirCall.snap?) := by
      rw [temps_step]
      rw [List.filterMap_cons] at hprepared
      cases hsnap : call.snap? with
      | none =>
        rw [hsnap] at hprepared
        exact ⟨fun snap hmem ↦ absurd hmem (Option.not_mem_none snap), hprepared⟩
      | some snap =>
        rw [hsnap] at hprepared
        exact ⟨fun _ heq ↦ Option.some.inj heq ▸ hprepared.1, hprepared.2⟩
    rw [List.map_cons] at hleft
    cases hleft with
    | before => exact ⟨dir, Interrupted.Effect.Left.before _ _, h⟩
    | inside n => exact ⟨_, Interrupted.Effect.Left.inside n call calls dir, h.cut n call⟩
    | behind hleft =>
      obtain ⟨dir', hdir', hpresents⟩ := ih (h.step call hcall.1) hcall.2 hleft
      exact ⟨dir', hdir'.behind, hpresents⟩

/-! ## Recovery from the files -/

/-- The auction that the manifest in the folder describes. -/
def readManifest (fromSlice : List UInt8 → Except String AuctionConfig) (f : Folder) :
    Except WalError AuctionConfig :=
  match f MANIFEST with
  | none => .error (.noManifest .dir)
  | some bytes =>
    match fromSlice bytes with
    | .ok config => .ok config
    | .error detail => .error (.corrupt .manifest 0 detail)

/-- The newest snapshot in a listing that actually loads. -/
def latestUsable (sc : SnapshotCodec) (entries : List (Name × List UInt8)) :
    Option Snapshot :=
  (list entries).findSome? fun e ↦ (SnapshotFile.read sc e.2).toOption

/-- Rebuild the auction from a folder, which is listed twice: for its segments and for its
snapshots. -/
def recover (c : Codec) (fromSlice : List UInt8 → Except String AuctionConfig)
    (sc : SnapshotCodec) (f : Folder)
    (forSegments forSnapshots : List (Name × List UInt8)) :
    Option (Except WalError Recovered) :=
  match readManifest fromSlice f with
  | .error e => some (.error e)
  | .ok config =>
    match c.readFrom [] (segments forSegments) with
    | .error e => some (.error e)
    | .ok records => recoverFrom config records (latestUsable sc forSnapshots)

variable {c : Codec} {forSegments forSnapshots : List (Name × List UInt8)}

theorem Presents.readManifest_eq (h : Presents fromSlice sc f dir) :
    readManifest fromSlice f = dir.readManifest := by
  rw [readManifest, Dir.readManifest, ← h.manifest]
  cases f MANIFEST with
  | none => rfl
  | some bytes =>
    rw [Option.map_some]
    dsimp only
    cases fromSlice bytes with
    | ok config => rfl
    | error detail => rfl

theorem Presents.latestUsable_eq (h : Presents fromSlice sc f dir)
    (hl : Listing f forSnapshots) :
    latestUsable sc forSnapshots = dir.snaps.latestUsable := by
  rw [latestUsable, Snapshots.latestUsable, ← h.list_eq hl, List.findSome?_map]
  rfl

/-- **Recovery from the files is recovery of the directory**, in whatever order they are listed. -/
theorem Presents.recover_eq (h : Presents fromSlice sc f dir)
    (hsegments : Listing f forSegments) (hsnapshots : Listing f forSnapshots) :
    recover c fromSlice sc f forSegments forSnapshots = c.recover dir := by
  have hread : c.readFrom [] (segments forSegments) = c.readAll dir :=
    congrArg (c.readFrom []) (h.segments_eq hsegments)
  unfold recover Codec.recover
  rw [h.readManifest_eq]
  cases dir.readManifest with
  | error e => rfl
  | ok config =>
    dsimp only
    rw [hread]
    cases c.readAll dir with
    | error e => rfl
    | ok records => exact congrArg (recoverFrom config records) (h.latestUsable_eq hsnapshots)

end Folder

/-! ## A process that is killed

Two threads are each in a list of calls of their own, and what is left is some first calls of each,
the last perhaps in part. Of a save that is a snapshot more, a temporary file, or some old
snapshots fewer. -/

variable {c : Codec} {fromSlice : List UInt8 → Except String AuctionConfig} {f f' : Folder}
  {dir dir' : Dir} {image : StateImage} {config : AuctionConfig} {records : List LogRecord}
  {forSegments forSnapshots : List (Name × List UInt8)} {k n : Seq}

/-- **The files refine the directory.** While a state is saved and the log is written, in any order
of their calls, the process is killed. What is left of the files is a directory that may be left in
the model, and recovery from the files, in whatever order they are listed, is recovery of it. -/
theorem files_refine (hsc : sc.Lawful) (hfits : image.Fits) (h : f.Presents fromSlice sc dir)
    {calls : List DirCall}
    (hsave : calls.filterMap DirCall.snap? = dir.snaps.saveCalls image.state)
    (hleft : fileCalls.Left (calls.map (DirCall.file (SnapshotFile.written sc image))) f f')
    (hsegments : Listing f' forSegments) (hsnapshots : Listing f' forSnapshots) :
    ∃ dir', dirCalls.Left calls dir dir' ∧
      Folder.recover c fromSlice sc f' forSegments forSnapshots = c.recover dir' := by
  have hprepared : Prepared sc (SnapshotFile.written sc image) f.temps
      (calls.filterMap DirCall.snap?) :=
    hsave ▸ prepared_save (fun _ ↦ SnapshotFile.read_encode hsc hfits) _ _
  obtain ⟨dir', hdir', hpresents⟩ := h.left hprepared hleft
  exact ⟨dir', hdir', hpresents.recover_eq hsegments hsnapshots⟩

/-- A log of two segments with its manifest, -/
def sampleFolder : Folder :=
  Function.update
    (Function.update (Function.update (fun _ ↦ none) MANIFEST (some []))
      (segmentPath 0) (some (Bincode.codec.frames [⟨0, 0, .open⟩, ⟨1, 0, .tick⟩])))
    (segmentPath 1) (some (Bincode.codec.frames [⟨2, 0, .tick⟩]))

/-- and a list of its files. -/
def sampleEntries : List (Name × List UInt8) :=
  [(segmentPath 1, Bincode.codec.frames [⟨2, 0, .tick⟩]),
    (segmentPath 0, Bincode.codec.frames [⟨0, 0, .open⟩, ⟨1, 0, .tick⟩]), (MANIFEST, [])]

theorem sampleFolder_presents :
    sampleFolder.Presents (fun _ ↦ .ok (.sample 0)) Bincode.snapshotCodec Dir.rolled :=
  ((Folder.Presents.empty.update_manifest []).update_segment 0 fun _ ↦
    Bincode.codec.frames [⟨0, 0, .open⟩, ⟨1, 0, .tick⟩]).update_segment 1 fun _ ↦
      Bincode.codec.frames [⟨2, 0, .tick⟩]

theorem sampleFolder_listing : Listing sampleFolder sampleEntries :=
  ((Listing.empty.update rfl []).update rfl _).update (by decide) _

/-- A new segment is there, and of the save nothing yet. -/
theorem files_refine_sample :
    ∃ dir', dirCalls.Left (.seg (.write 2 []) ::
        (Dir.rolled.snaps.saveCalls sampleImage.state).map DirCall.snap) Dir.rolled dir' ∧
      Folder.recover Bincode.codec (fun _ ↦ .ok (.sample 0)) Bincode.snapshotCodec
        (Function.update sampleFolder (segmentPath 2) (some []))
        ((segmentPath 2, []) :: sampleEntries) ((segmentPath 2, []) :: sampleEntries) =
          Bincode.codec.recover dir' := by
  have hsave : (DirCall.seg (.write 2 []) ::
      (Dir.rolled.snaps.saveCalls sampleImage.state).map DirCall.snap).filterMap DirCall.snap? =
        Dir.rolled.snaps.saveCalls sampleImage.state :=
    (List.filterMap_cons_none rfl).trans (DirCall.filterMap_snap _)
  have hnew : sampleFolder (segmentPath 2) = none := by decide
  have hlisting := sampleFolder_listing.update hnew []
  exact files_refine Bincode.snapshot_lawful
    (SnapshotFile.fits_of_replay (n := 3) rfl SnapshotFile.sampleImage_state)
    sampleFolder_presents hsave (Interrupted.Effect.Left.before _ _).behind hlisting hlisting

theorem left_snap {calls : List SnapCall} (h : dirCalls.Left (calls.map DirCall.snap) dir dir') :
    ∃ snaps, snapCalls.Left calls dir.snaps snaps ∧ dir' = { dir with snaps := snaps } := by
  induction calls generalizing dir with
  | nil =>
    rw [Interrupted.Effect.left_nil.mp h]
    exact ⟨dir.snaps, Interrupted.Effect.Left.before _ _, rfl⟩
  | cons call calls ih =>
    rw [List.map_cons] at h
    cases h with
    | before => exact ⟨_, Interrupted.Effect.Left.before _ _, rfl⟩
    | inside n => exact ⟨_, Interrupted.Effect.Left.before _ _, rfl⟩
    | behind h =>
      obtain ⟨snaps, hsnaps, rfl⟩ := ih h
      exact ⟨snaps, hsnaps.behind, rfl⟩

theorem Snapshots.Of.save {snaps t : Snapshots} (h : snaps.Of config records)
    {state : AuctionState} (hlast : state.lastSeq = some k) (hlt : k.val < records.length)
    (hstate : fullReplay config (records.take (k.val + 1)) = some state)
    (hleft : snapCalls.Left (snaps.saveCalls state) snaps t) : t.Of config records := by
  refine hleft.invariant (P := fun t : Snapshots ↦ t.Of config records) h (fun call hcall s hs ↦ ?_)
    fun _ _ _ _ ↦ id
  rw [Snapshots.saveCalls, Snapshots.writeCalls, hlast] at hcall
  rcases List.mem_append.mp hcall with hcall | hcall
  · simp only [List.mem_cons, List.not_mem_nil, or_false] at hcall
    rcases hcall with rfl | rfl | rfl | rfl
    · exact hs
    · exact hs
    · exact hs
    · have hwrite := hs.write hlast hlt hstate
      rw [Snapshots.write, hlast] at hwrite
      exact hwrite
  · obtain ⟨e, -, rfl⟩ := List.mem_map.mp hcall
    exact fun k' s' hmem ↦ hs k' s' (List.mem_of_mem_filter hmem)

theorem NumberedFrom.lastSeq_take (hnum : NumberedFrom 0 records) (hlt : k.val < records.length)
    {state : AuctionState} (hstate : fullReplay config (records.take (k.val + 1)) = some state) :
    state.lastSeq = some k := by
  have hlen : (records.take (k.val + 1)).length = k.val + 1 := List.length_take_of_le hlt
  have hfront : NumberedFrom 0 (records.take (k.val + 1)) :=
    (NumberedFrom.append.mp (by rwa [List.take_append_drop])).1
  obtain ⟨r, hr⟩ : ∃ r, (records.take (k.val + 1)).getLast? = some r := by
    refine ⟨_, List.getLast?_eq_some_getLast fun hnil ↦ ?_⟩
    rw [hnil] at hlen
    cases hlen
  have hseq := hfront.getLast? hr
  have hlast := applyAll_lastSeq hstate
  rw [hr, Option.map_some, Option.some_or] at hlast
  rw [hlast, U64.ext (a := r.seq) (b := k) (by omega)]

/-- **A save that is killed loses nothing.** On a disk with the whole log and honest snapshots the
state after some record is saved, and the process is killed at any moment: with the temporary file
not there yet, cut off, or whole, with the snapshot in its place, or with old ones deleted. However
the files are listed then, recovery from them gives what a full replay gives. -/
theorem killed_save_recovers (hsc : sc.Lawful) (hdisk : HonestDisk c config dir records)
    (hn : records.length = n.val) (hlt : k.val < records.length)
    (hstate : fullReplay config (records.take (k.val + 1)) = some image.state)
    (h : f.Presents fromSlice sc dir)
    (hleft : fileCalls.Left (((dir.snaps.saveCalls image.state).map DirCall.snap).map
      (DirCall.file (SnapshotFile.written sc image))) f f')
    (hsegments : Listing f' forSegments) (hsnapshots : Listing f' forSnapshots) :
    ∃ r, Folder.recover c fromSlice sc f' forSegments forSnapshots = some (.ok r) ∧
      fullReplay config records = some r.state ∧ r.nextSeq = n := by
  have hfits : image.Fits := SnapshotFile.fits_of_replay hn hstate
  have hprepared : Prepared sc (SnapshotFile.written sc image) f.temps
      (((dir.snaps.saveCalls image.state).map DirCall.snap).filterMap DirCall.snap?) :=
    (DirCall.filterMap_snap _).symm ▸ prepared_save (fun _ ↦ SnapshotFile.read_encode hsc hfits) _ _
  obtain ⟨dir', hdir', hpresents⟩ := h.left hprepared hleft
  obtain ⟨snaps, hsnaps, rfl⟩ := left_snap hdir'
  have hlast := hdisk.numbered.lastSeq_take hlt hstate
  have hof := hdisk.snapshots.save hlast hlt hstate hsnaps
  have hleftDisk : HonestDisk c config { dir with snaps := snaps } records :=
    ⟨hdisk.manifest, hdisk.log, hdisk.numbered, hof⟩
  obtain ⟨r, hrecover, hreplay, hnext, -⟩ := recover_eq_full_replay hleftDisk hn
  exact ⟨r, (hpresents.recover_eq hsegments hsnapshots).trans hrecover, hreplay, hnext⟩

/-- The temporary file is there, and nothing is in it. -/
theorem killed_save_recovers_sample :
    ∃ r, Folder.recover Bincode.codec (fun _ ↦ .ok (.sample 0)) Bincode.snapshotCodec
        (Function.update sampleFolder (partialPath 1) (some []))
        ((partialPath 1, []) :: sampleEntries) ((partialPath 1, []) :: sampleEntries) =
          some (.ok r) ∧
      fullReplay (.sample 0) sampleHistory = some r.state ∧ r.nextSeq = 3 := by
  have hdisk : HonestDisk Bincode.codec (.sample 0) Dir.rolled sampleHistory :=
    ⟨rfl, Dir.rolled_reads, by decide, fun _ _ hmem ↦ absurd hmem List.not_mem_nil⟩
  have hlast : sampleImage.state.lastSeq = some 1 := by decide
  have hleft : fileCalls.Left (((Dir.rolled.snaps.saveCalls sampleImage.state).map
      DirCall.snap).map (DirCall.file (SnapshotFile.written Bincode.snapshotCodec sampleImage)))
      sampleFolder (Function.update sampleFolder (partialPath 1) (some [])) := by
    rw [Snapshots.saveCalls, Snapshots.writeCalls, hlast]
    exact (Interrupted.Effect.Left.before _ _).behind
  have hnew : sampleFolder (partialPath 1) = none := by decide
  have hlisting := sampleFolder_listing.update hnew []
  exact killed_save_recovers Bincode.snapshot_lawful (n := 3) (k := 1) hdisk rfl (by decide)
    SnapshotFile.sampleImage_state sampleFolder_presents hleft hlisting hlisting

end DutchAuction
