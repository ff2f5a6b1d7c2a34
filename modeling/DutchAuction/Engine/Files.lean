import DutchAuction.Engine.Crash
import DutchAuction.Wal.Files

/-!
# The files of all the processes on a directory

A process changes the directory it runs on by calls on files, one at a time, and may be killed in
the middle of one, or of two: the thread that writes the log and the thread that saves states are
each in a call of their own. Here a folder of files goes along with the directory of the model,
through any number of processes (`Machine.stepFiles`), and at every moment of any run it is that
directory (`Machine.Filed`). So what a killed process leaves recovers, however it is listed, unless
the manifest was cut off (`killed_folder_recovers`).

What is saved are states that the engine has had. Each has an image that fits into a file, because
it is a replay of no more records than there are positions (`Keepable.image`), and the image is
determined by the state, so what is written of a state is determined too.
-/

namespace DutchAuction

variable {state state' : AuctionState} {c : Codec} {config : AuctionConfig} {dir : Dir}

/-! ## States that can be saved

A state that the engine has had is a replay of a log, and so a run, whose image fits into a file.
-/

/-- A replay of no more records than its position allows. -/
def Replayed (state : AuctionState) : Prop :=
  ∃ config records, fullReplay config records = some state ∧
    records.length ≤ state.lastSeq.elim 0 fun last ↦ last.val + 1

/-- There is a position after it, too. -/
structure Keepable (state : AuctionState) : Prop where
  replayed : Replayed state
  next : ∀ last ∈ state.lastSeq, last.val + 1 < 2 ^ 64

theorem Keepable.new (config : AuctionConfig) : Keepable (AuctionState.new config) :=
  ⟨⟨config, [], rfl, Nat.le_refl 0⟩, fun last hlast ↦ absurd hlast (Option.not_mem_none last)⟩

theorem Replayed.step (h : Replayed state) {r : LogRecord} {events : List Event}
    (hstep : state.step r = some (state', events)) : Replayed state' := by
  obtain ⟨config, records, hreplay, hlength⟩ := h
  have hseq := step_lastSeq hstep
  have haccepts : state.Accepts r.seq := by
    by_contra hrefused
    rw [AuctionState.step, AuctionState.apply, if_neg hrefused] at hstep
    cases hstep
  refine ⟨config, records ++ [r], ?_, ?_⟩
  · have hfollow : follow state r = some state' := congrArg (Option.map Prod.fst) hstep
    rw [fullReplay_append, hreplay, Option.bind_some]
    exact Option.bind_eq_some_iff.mpr ⟨state', hfollow, rfl⟩
  · rw [hseq, List.length_append, List.length_singleton]
    cases hlast : state.lastSeq with
    | none =>
      rw [hlast] at hlength
      exact Nat.succ_le_succ (hlength.trans (Nat.zero_le _))
    | some last =>
      rw [hlast] at hlength
      have hnext := Seq.next_eq_some.mp (haccepts last hlast)
      exact Nat.succ_le_succ (hlength.trans hnext.ge)

/-- **What can be saved has an image that fits.** -/
theorem Keepable.image (h : Keepable state) : ∃ image : StateImage, image.state = state ∧
    image.Fits := by
  obtain ⟨config, records, hreplay, hlength⟩ := h.replayed
  obtain ⟨tr, hrun, hinputs⟩ := applyAll_run hreplay
  refine run_image hrun ?_
  have hcount : tr.length = records.length := by rw [← hinputs, List.length_map]
  rw [hcount]
  cases hlast : state.lastSeq with
  | none =>
    rw [hlast] at hlength
    exact hlength.trans_lt (Nat.two_pow_pos 64)
  | some last =>
    rw [hlast] at hlength
    exact hlength.trans_lt (h.next last hlast)

open Classical in
/-- What is written of a state. The state alone does not list its maps, but it has one image. -/
noncomputable def SnapshotCodec.bytesOf (sc : SnapshotCodec) (seq : Seq) (state : AuctionState) :
    List UInt8 :=
  if h : ∃ image : StateImage, image.state = state ∧ image.Fits then
    SnapshotFile.encode sc seq h.choose
  else []

theorem Keepable.read (h : Keepable state) {sc : SnapshotCodec} (hsc : sc.Lawful) (seq : Seq) :
    SnapshotFile.read sc (sc.bytesOf seq state) = .ok ⟨seq, state⟩ := by
  have himage := h.image.choose_spec
  rw [SnapshotCodec.bytesOf, dif_pos h.image, SnapshotFile.read_encode hsc himage.2, himage.1]

/-! ### Recovery -/

theorem Replayed.replay {resumeAfter last last' : Option Seq} {count count' : ℕ}
    {records : List LogRecord} (h : Replayed state)
    (hreplay : replay resumeAfter state last count records = some (.ok (state', last', count'))) :
    Replayed state' ∧ (state' = state ∧ last' = last ∨ state'.lastSeq = last') := by
  induction records generalizing state last count with
  | nil =>
    cases hreplay
    exact ⟨h, Or.inl ⟨rfl, rfl⟩⟩
  | cons r records ih =>
    rw [DutchAuction.replay] at hreplay
    split at hreplay
    · exact ih h hreplay
    · split at hreplay
      · cases hreplay
      · obtain ⟨t, hfollow, hrest⟩ := Option.bind_eq_some_iff.mp hreplay
        obtain ⟨u, hstep, rfl⟩ := Option.map_eq_some_iff.mp hfollow
        obtain ⟨hreplayed, hlast⟩ := ih (h.step (r := r) hstep) hrest
        refine ⟨hreplayed, Or.inr ?_⟩
        rcases hlast with ⟨rfl, rfl⟩ | hlast
        · exact step_lastSeq hstep
        · exact hlast

/-- Every snapshot in the directory that reads is of a state that can be saved. -/
def Snapshots.AllKeepable (snaps : Snapshots) : Prop :=
  ∀ k s, (k, .ok s) ∈ snaps.entries → Keepable s.state

theorem Snapshots.AllKeepable.startFrom {snaps : Snapshots} (h : snaps.AllKeepable)
    (config : AuctionConfig) (records : List LogRecord) :
    Keepable (startFrom config records snaps.latestUsable).1 := by
  cases hlatest : snaps.latestUsable with
  | none => exact .new config
  | some s =>
    obtain ⟨k, hmem, -⟩ := Snapshots.latestUsable_eq_some hlatest
    rw [DutchAuction.startFrom]
    split
    · exact .new config
    · exact h k s hmem

/-- **What is recovered can be saved.** -/
theorem Snapshots.AllKeepable.recover (h : dir.snaps.AllKeepable) {r : Recovered}
    (hrecover : c.recover dir = some (.ok r)) : Keepable r.state := by
  rw [Codec.recover] at hrecover
  split at hrecover
  · cases hrecover
  · split at hrecover
    · cases hrecover
    · rename_i config _ _ records _
      obtain ⟨result, hreplay, hresult⟩ := Option.bind_eq_some_iff.mp hrecover
      cases result with
      | error e => cases hresult
      | ok result =>
        obtain ⟨state, last, replayed⟩ := result
        obtain ⟨nextSeq, hnext, heq⟩ := Option.map_eq_some_iff.mp hresult
        cases heq
        have hstart := h.startFrom config records
        obtain ⟨hreplayed, hlast⟩ := hstart.replayed.replay hreplay
        rcases hlast with ⟨heq, -⟩ | hlast
        · exact heq ▸ hstart
        · refine ⟨hreplayed, fun k hk ↦ ?_⟩
          rw [← hlast, Option.mem_def.mp hk] at hnext
          exact Seq.next_eq_some.mp hnext ▸ nextSeq.val_lt

theorem openInner.resume_eq_ok {segmentBytes : U64} {nextSeq : Seq} {o : Opened}
    (h : openInner.resume c config segmentBytes dir state nextSeq = .ok o) :
    o.state = state ∧ o.nextSeq = nextSeq := by
  rw [openInner.resume] at h
  split at h
  · cases h
    exact ⟨rfl, rfl⟩
  · cases h

theorem Snapshots.AllKeepable.openInner (h : dir.snaps.AllKeepable) {segmentBytes : U64}
    {o : Opened} (hopen : openInner c config segmentBytes dir = some (.ok o)) :
    Keepable o.state := by
  obtain ⟨result, hrecover, heq⟩ := Option.map_eq_some_iff.mp hopen
  split at heq
  · split at heq
    · exact (openInner.resume_eq_ok heq).1 ▸ h.recover hrecover
    · cases heq
  · exact (openInner.resume_eq_ok heq).1 ▸ .new config
  · cases heq

/-! ## The files that a process changes

The calls of a process on the directory are calls on files: those on the segments and the snapshots
as in `DutchAuction.Wal.Files`, and the two that make the manifest. -/

variable {text : ManifestText} {sc : SnapshotCodec} {f : Folder}

section

variable (bytes : Seq → AuctionState → List UInt8)

/-- What the call that a kill hits has done to the files. -/
def cutFiles (inside : Option ℕ) (calls : List DirCall) (f : Folder) : Folder :=
  match inside, calls with
  | some n, call :: _ => (call.file bytes).cut n f
  | _, _ => f

/-- What the first of these calls does to the files. -/
def callFiles (calls : List DirCall) (f : Folder) : Folder :=
  match calls with
  | [] => f
  | call :: _ => (call.file bytes).apply f

namespace Machine

/-- What a move does to the files. If it is a kill, the snapshot thread may be inside a call, too:
`torn` says how much of it is done. -/
def files (text : ManifestText) (config : AuctionConfig) (m : Machine) (torn : Option ℕ)
    (move : Move) (f : Folder) : Folder :=
  match move, m.phase with
  | .call, .founding _ _ => (FileCall.create MANIFEST).apply f
  | .call, .describing _ _ => (FileCall.append MANIFEST (text.toVecPretty config)).apply f
  | .call, .opening _ calls => callFiles bytes (calls.map .seg) f
  | .write, .up live => callFiles bytes (live.writing.map .seg) f
  | .save, .up live => callFiles bytes (live.saving.map .snap) f
  | .kill inside, .describing _ _ =>
    (FileCall.append MANIFEST (text.toVecPretty config)).cut (inside.getD 0) f
  | .kill inside, .opening _ calls => cutFiles bytes inside (calls.map .seg) f
  | .kill inside, .up live =>
    cutFiles bytes torn (live.saving.map .snap)
      (cutFiles bytes inside (live.writing.map .seg) f)
  | _, _ => f

/-- One step of a directory and of the files. -/
def stepFiles (c : Codec) (text : ManifestText) (config : AuctionConfig) (s : Machine × Folder)
    (move : Move × Option ℕ) : Option ((Machine × Folder) × Outcome) :=
  (step c text config s.1 move.1).map fun r ↦
    ((r.1, s.1.files bytes text config move.2 move.1 s.2), r.2)

end Machine

end

/-- What holds of the files while an auction is open. -/
structure Live.Filed (sc : SnapshotCodec) (f : Folder) (live : Live) : Prop where
  state : Keepable live.state
  handed : ∀ s ∈ live.handed, Keepable s
  renames : ∀ seq s, SnapCall.rename seq s ∈ live.saving → Keepable s
  prepared : Prepared sc sc.bytesOf f.temps live.saving

/-- What holds of the files, by where the process is. -/
def Machine.Stands (sc : SnapshotCodec) (f : Folder) (m : Machine) : Prop :=
  match m.phase with
  | .down => m.dir.manifest = none → m.dir.segs.entries = [] ∧ m.dir.snaps.entries = []
  | .founding o _ => m.dir.manifest = none ∧
    (m.dir.segs.entries = [] ∧ m.dir.snaps.entries = []) ∧ Keepable o.state
  | .describing o _ => f MANIFEST = some [] ∧ m.dir.manifest ≠ none ∧ Keepable o.state
  | .opening o _ => m.dir.manifest ≠ none ∧ Keepable o.state
  | .up live => m.dir.manifest ≠ none ∧ live.Filed sc f

/-- **The files are the directory.** -/
structure Machine.Filed (text : ManifestText) (sc : SnapshotCodec) (m : Machine)
    (f : Folder) : Prop where
  presents : f.Presents text.fromSlice sc m.dir
  snaps : m.dir.snaps.AllKeepable
  stands : m.Stands sc f

/-! ### Calls -/

theorem callFiles_seg (h : f.Presents text.fromSlice sc dir) (call : SegCall)
    (calls : List SegCall) :
    (callFiles sc.bytesOf ((call :: calls).map .seg) f).Presents text.fromSlice sc
      { dir with segs := call.apply dir.segs } :=
  h.step (.seg call) fun _ hsnap ↦ absurd hsnap (Option.not_mem_none _)

theorem temps_callFiles_seg (calls : List SegCall) (f : Folder) :
    (callFiles sc.bytesOf (calls.map .seg) f).temps = f.temps := by
  cases calls with
  | nil => rfl
  | cons call calls => exact Folder.temps_step (.seg call) f

theorem cutFiles_seg (h : f.Presents text.fromSlice sc dir) (inside : Option ℕ)
    (calls : List SegCall) :
    (cutFiles sc.bytesOf inside (calls.map .seg) f).Presents text.fromSlice sc
      { dir with segs := Machine.cutFirst inside calls dir.segs } := by
  cases inside with
  | none => cases calls <;> exact h
  | some n =>
    cases calls with
    | nil => exact h
    | cons call calls => exact h.cut n (.seg call)

theorem cutFiles_snap (h : f.Presents text.fromSlice sc dir) (torn : Option ℕ)
    (calls : List SnapCall) :
    (cutFiles sc.bytesOf torn (calls.map .snap) f).Presents text.fromSlice sc dir := by
  cases torn with
  | none => cases calls <;> exact h
  | some n =>
    cases calls with
    | nil => exact h
    | cons call calls => exact h.cut n (.snap call)

/-! ### One step

A step makes one call of one thread, or dies in the middle of one or of two. The files and the
directory of the model go on together. -/

theorem Snapshots.eq_of_rename {snaps : Snapshots} {seq : Seq}
    (h : SnapCall.rename seq state' ∈ snaps.saveCalls state) : state' = state := by
  rcases List.mem_append.mp h with h | h
  · rw [Snapshots.writeCalls] at h
    cases hlast : state.lastSeq with
    | none =>
      rw [hlast] at h
      exact absurd h List.not_mem_nil
    | some last =>
      rw [hlast] at h
      simp only [List.mem_cons, List.not_mem_nil, or_false] at h
      rcases h with h | h | h | h
      · cases h
      · cases h
      · cases h
      · cases h
        rfl
  · obtain ⟨e, -, he⟩ := List.mem_map.mp h
    cases he

theorem Snapshots.AllKeepable.call {snaps : Snapshots} (h : snaps.AllKeepable) {call : SnapCall}
    (hrename : ∀ seq s, call = .rename seq s → Keepable s) :
    (call.apply snaps).AllKeepable := by
  intro k s hmem
  cases call with
  | createTemp | writeTemp | syncTemp => exact h k s hmem
  | rename seq saved =>
    rcases OrdMap.mem_entries_upsert hmem with ⟨old, heq⟩ | ⟨-, hmem⟩
    · cases (Prod.mk.inj heq).2
      exact hrename seq saved rfl
    · exact h k s hmem
  | remove seq => exact h k s (List.mem_of_mem_filter hmem)

/-- **A step of an open auction.** -/
theorem Live.Filed.step (hsc : sc.Lawful) (config : AuctionConfig) {live live' : Live} {dir' : Dir}
    (h : live.Filed sc f) (hpresents : f.Presents text.fromSlice sc dir)
    (hsnaps : dir.snaps.AllKeepable)
    {move : Machine.Move} {out : Machine.Outcome} (torn : Option ℕ)
    (hstep : Machine.stepLive c dir live move = some (dir', live', out)) :
    dir'.manifest = dir.manifest ∧ dir'.snaps.AllKeepable ∧
      (Machine.files sc.bytesOf text config ⟨dir, .up live⟩ torn move f).Presents
        text.fromSlice sc dir' ∧
      live'.Filed sc (Machine.files sc.bytesOf text config ⟨dir, .up live⟩ torn move f) := by
  cases move with
  | «open» | call | kill => cases hstep
  | command ts cmd =>
    obtain ⟨next, hnext, hstep⟩ := Option.bind_eq_some_iff.mp hstep
    obtain ⟨r, happly, heq⟩ := Option.map_eq_some_iff.mp hstep
    cases heq
    have happlied : live.state.step ⟨live.nextSeq, ts, cmd⟩ = some (r.1, r.2) := happly
    refine ⟨rfl, hsnaps, hpresents, { h with
      state := ⟨h.state.replayed.step happlied, fun last hlast ↦ ?_⟩ }⟩
    rw [step_lastSeq happlied] at hlast
    cases hlast
    exact Seq.next_eq_some.mp hnext ▸ next.val_lt
  | append =>
    rw [Machine.stepLive] at hstep
    split at hstep
    · split at hstep
      · cases hstep
        exact ⟨rfl, hsnaps, hpresents, { h with }⟩
      · cases hstep
        exact ⟨rfl, hsnaps, hpresents, h⟩
    · cases hstep
  | sync | rotate =>
    rw [Machine.stepLive] at hstep
    split at hstep
    · cases hstep
      exact ⟨rfl, hsnaps, hpresents, { h with }⟩
    · cases hstep
  | write =>
    rw [Machine.stepLive] at hstep
    split at hstep
    · cases hstep
    · rename_i call calls hcalls
      cases hstep
      have hfiles : Machine.files sc.bytesOf text config ⟨dir, .up live⟩ torn .write f =
          callFiles sc.bytesOf ((call :: calls).map .seg) f := by rw [← hcalls]; rfl
      rw [hfiles]
      refine ⟨rfl, hsnaps, callFiles_seg hpresents call calls, { h with prepared := ?_ }⟩
      rw [temps_callFiles_seg]
      exact h.prepared
  | hand =>
    rw [Machine.stepLive] at hstep
    split at hstep
    · cases hstep
    · cases hstep
      refine ⟨rfl, hsnaps, hpresents, { h with handed := fun s hs ↦ ?_ }⟩
      cases hs
      exact h.state
  | take =>
    rw [Machine.stepLive] at hstep
    split at hstep
    · rename_i saved hidle hhanded
      cases hstep
      have hsaved := h.handed saved hhanded
      exact ⟨rfl, hsnaps, hpresents,
        { h with
          handed := fun s hs ↦ absurd hs (Option.not_mem_none s)
          renames := fun seq s hs ↦ Snapshots.eq_of_rename hs ▸ hsaved
          prepared := prepared_save (hsaved.read hsc) _ _ }⟩
    · cases hstep
  | save =>
    rw [Machine.stepLive] at hstep
    split at hstep
    · cases hstep
    · rename_i call calls hcalls
      cases hstep
      have hfiles : Machine.files sc.bytesOf text config ⟨dir, .up live⟩ torn .save f =
          callFiles sc.bytesOf ((call :: calls).map .snap) f := by rw [← hcalls]; rfl
      have hprepared := h.prepared
      have hrenames := h.renames
      rw [hcalls] at hprepared hrenames
      rw [hfiles]
      refine ⟨rfl, hsnaps.call fun seq s heq ↦ hrenames seq s (heq ▸ List.mem_cons_self),
        hpresents.step (.snap call) fun snap hsnap ↦ ?_, { h with
          renames := fun seq s hs ↦ hrenames seq s (List.mem_cons_of_mem _ hs)
          prepared := ?_ }⟩
      · exact Option.some.inj hsnap ▸ hprepared.1
      · have htemps : (callFiles sc.bytesOf ((call :: calls).map .snap) f).temps =
            call.temps sc.bytesOf f.temps := Folder.temps_step (.snap call) f
        exact htemps.symm ▸ hprepared.2

namespace Machine.Filed

variable {m m' : Machine} {out : Machine.Outcome}

theorem new : Filed text sc Machine.new fun _ ↦ none where
  presents := Folder.Presents.empty
  snaps _ _ hmem := absurd hmem List.not_mem_nil
  stands _ := ⟨rfl, rfl⟩

theorem «open» (hc : c.Lawful) {segmentBytes : U64} (h : Filed text sc ⟨dir, .down⟩ f)
    (hstep : Machine.step c text config ⟨dir, .down⟩ (.open segmentBytes) = some (m', out)) :
    m'.Filed text sc f := by
  rw [Machine.step] at hstep
  dsimp only at hstep
  cases hmanifest : dir.manifest with
  | none =>
    have hnew := h.stands hmanifest
    have hresumable : Resumable c config dir := Or.inl ⟨hmanifest, hnew⟩
    obtain ⟨o, hopen, -⟩ := hresumable.opens hc segmentBytes
    rw [hopen, hmanifest] at hstep
    cases hstep
    exact ⟨h.presents, h.snaps, hmanifest, hnew, h.snaps.openInner hopen⟩
  | some manifest =>
    have hthere : dir.manifest ≠ none := hmanifest ▸ Option.some_ne_none manifest
    cases hopen : openInner c config segmentBytes dir with
    | none =>
      rw [hopen] at hstep
      cases hstep
    | some result =>
      rw [hopen, hmanifest] at hstep
      cases result with
      | error e =>
        cases hstep
        exact h
      | ok o =>
        cases hstep
        exact ⟨h.presents, h.snaps, hthere, h.snaps.openInner hopen⟩

theorem call (h : m.Filed text sc f) (torn : Option ℕ)
    (hstep : Machine.step c text config m .call = some (m', out)) :
    m'.Filed text sc (m.files sc.bytesOf text config torn .call f) := by
  obtain ⟨dir, phase⟩ := m
  have hstands := h.stands
  cases phase with
  | down | up => cases hstep
  | founding o calls =>
    cases hstep
    have hcreated : Function.update f MANIFEST (some []) MANIFEST = some [] :=
      Function.update_self _ _ _
    exact ⟨h.presents.update_manifest [], h.snaps, hcreated, Option.some_ne_none _, hstands.2.2⟩
  | describing o calls =>
    cases hstep
    have hwritten : (FileCall.append MANIFEST (text.toVecPretty config)).apply f =
        Function.update f MANIFEST (some (text.toVecPretty config)) := by
      rw [FileCall.apply, hstands.1]
      rfl
    have hpresents := h.presents.update_manifest (text.toVecPretty config)
    rw [← hwritten] at hpresents
    exact ⟨hpresents, h.snaps, Option.some_ne_none _, hstands.2.2⟩
  | opening o calls =>
    cases calls with
    | nil =>
      cases hstep
      exact ⟨h.presents, h.snaps, hstands.1,
        { state := hstands.2
          handed := fun s hs ↦ absurd hs (Option.not_mem_none s)
          renames := fun _ _ hs ↦ absurd hs List.not_mem_nil
          prepared := trivial }⟩
    | cons call calls =>
      cases hstep
      exact ⟨callFiles_seg h.presents call calls, h.snaps, hstands⟩

theorem kill (h : m.Filed text sc f) (torn inside : Option ℕ) :
    Filed text sc ⟨m.killed text config inside, .down⟩
      (m.files sc.bytesOf text config torn (.kill inside) f) := by
  obtain ⟨dir, phase⟩ := m
  have hstands := h.stands
  cases phase with
  | down => exact ⟨h.presents, h.snaps, hstands⟩
  | founding o calls => exact ⟨h.presents, h.snaps, fun _ ↦ hstands.2.1⟩
  | describing o calls =>
    have hwritten : (FileCall.append MANIFEST (text.toVecPretty config)).cut (inside.getD 0) f =
        Function.update f MANIFEST (some ((text.toVecPretty config).take (inside.getD 0))) := by
      rw [FileCall.cut, FileCall.apply, hstands.1]
      rfl
    have hpresents := h.presents.update_manifest ((text.toVecPretty config).take (inside.getD 0))
    rw [← hwritten] at hpresents
    exact ⟨hpresents, h.snaps, fun hnone ↦ absurd hnone (Option.some_ne_none _)⟩
  | opening o calls =>
    exact ⟨cutFiles_seg h.presents inside calls, h.snaps, fun hnone ↦ absurd hnone hstands.1⟩
  | up live =>
    exact ⟨cutFiles_snap (cutFiles_seg h.presents inside live.writing) torn live.saving, h.snaps,
      fun hnone ↦ absurd hnone hstands.1⟩

/-- **One step.** -/
theorem step (hc : c.Lawful) (hsc : sc.Lawful) (h : m.Filed text sc f) {move : Machine.Move}
    (torn : Option ℕ)
    (hstep : Machine.step c text config m move = some (m', out)) :
    m'.Filed text sc (m.files sc.bytesOf text config torn move f) := by
  have hlive : ∀ {dir live r}, m = ⟨dir, .up live⟩ → Machine.stepLive c dir live move = some r →
      m' = ⟨r.1, .up r.2.1⟩ → m'.Filed text sc (m.files sc.bytesOf text config torn move f) := by
    rintro dir live ⟨dir', live', out'⟩ rfl hlive rfl
    obtain ⟨hmanifest, hsnaps, hpresents, hfiled⟩ :=
      h.stands.2.step hsc config h.presents h.snaps torn hlive
    exact ⟨hpresents, hsnaps, hmanifest ▸ h.stands.1, hfiled⟩
  cases move with
  | «open» segmentBytes =>
    obtain ⟨dir, phase⟩ := m
    cases phase with
    | down => exact Filed.open hc h hstep
    | founding | describing | opening | up => cases hstep
  | call => exact h.call torn hstep
  | kill inside =>
    cases hstep
    exact h.kill torn inside
  | command | append | sync | rotate | write | hand | take | save =>
    obtain ⟨dir, phase⟩ := m
    cases phase with
    | down | founding | describing | opening => cases hstep
    | up live =>
      obtain ⟨r, hr, heq⟩ := Option.map_eq_some_iff.mp hstep
      exact hlive rfl hr (congrArg Prod.fst heq).symm

end Machine.Filed

/-! ## Every run -/

theorem Machine.filed_of_run (hc : c.Lawful) (hsc : sc.Lawful)
    {tr : List (Runs.Transition (Machine × Folder) (Machine.Move × Option ℕ) Machine.Outcome)}
    {s : Machine × Folder}
    (hrun : Runs.Run (Machine.stepFiles sc.bytesOf c text config) (Machine.new, fun _ ↦ none) tr
      s) : s.1.Filed text sc s.2 := by
  refine hrun.invariant (P := fun s ↦ s.1.Filed text sc s.2) Machine.Filed.new ?_
  intro s move s' out h hstep
  obtain ⟨r, hr, heq⟩ := Option.map_eq_some_iff.mp hstep
  cases heq
  exact h.step hc hsc move.2 hr

/-- **At every moment the files are the directory**, over any number of processes from when there
was none, killed between any two calls and inside any. However the folder is listed, recovery from
the files is recovery of the directory in the model. -/
theorem files_in_step (hc : c.Lawful) (hsc : sc.Lawful)
    {tr : List (Runs.Transition (Machine × Folder) (Machine.Move × Option ℕ) Machine.Outcome)}
    {s : Machine × Folder}
    (hrun : Runs.Run (Machine.stepFiles sc.bytesOf c text config) (Machine.new, fun _ ↦ none) tr s)
    {forSegments forSnapshots : List (Name × List UInt8)}
    (hsegments : Listing s.2 forSegments) (hsnapshots : Listing s.2 forSnapshots) :
    s.2.Presents text.fromSlice sc s.1.dir ∧
      s.2.recover c text.fromSlice sc forSegments forSnapshots = c.recover s.1.dir := by
  have hpresents := (Machine.filed_of_run hc hsc hrun).presents
  exact ⟨hpresents, hpresents.recover_eq hsegments hsnapshots⟩

/-- The process is killed after it has created the manifest, and before it has written it. -/
theorem files_in_step_sample :
    ∃ s : Machine × Folder,
      Folder.Presents Machine.sampleText.fromSlice Bincode.snapshotCodec s.2 s.1.dir ∧
      s.2 MANIFEST = some [] ∧
      s.2.recover Bincode.codec Machine.sampleText.fromSlice Bincode.snapshotCodec
        [(MANIFEST, [])] [(MANIFEST, [])] = Bincode.codec.recover s.1.dir := by
  have hlisting : Listing (Function.update (Function.update (fun _ ↦ none) MANIFEST (some []))
      MANIFEST (some [])) [(MANIFEST, [])] := by
    rw [Function.update_idem]
    exact Listing.empty.update rfl []
  have hrun := Runs.run_play
    (Machine.stepFiles Bincode.snapshotCodec.bytesOf Bincode.codec Machine.sampleText (.sample 0))
    (Machine.new, fun _ ↦ none) [(.open 64, none), (.call, none), (.kill none, none)]
  obtain ⟨hpresents, hrecover⟩ :=
    files_in_step Bincode.lawful Bincode.snapshot_lawful hrun hlisting hlisting
  exact ⟨_, hpresents, rfl, hrecover⟩

/-! ## After a kill -/

theorem recover_of_openInner (hmanifest : dir.manifest ≠ none) {segmentBytes : U64} {o : Opened}
    (hopen : openInner c config segmentBytes dir = some (.ok o)) :
    ∃ r, c.recover dir = some (.ok r) ∧ r.state.config = config ∧ o.state = r.state ∧
      o.nextSeq = r.nextSeq := by
  obtain ⟨result, hrecover, heq⟩ := Option.map_eq_some_iff.mp hopen
  split at heq
  · rename_i r
    split at heq
    · rename_i hconfig
      exact ⟨r, hrecover, hconfig, openInner.resume_eq_ok heq⟩
    · cases heq
  · exact absurd (Codec.manifest_of_recover hrecover) hmanifest
  · cases heq

/-- **A killed process leaves files that recover**, unless a kill has torn the manifest: there is no
manifest yet, or, however the files are listed, recovery gives an auction of this configuration at
the end of its log. -/
theorem killed_folder_recovers (hc : c.Lawful) (hsc : sc.Lawful) (htext : text.Lawful config)
    {tr : List (Runs.Transition (Machine × Folder) (Machine.Move × Option ℕ) Machine.Outcome)}
    {s : Machine × Folder}
    (hrun : Runs.Run (Machine.stepFiles sc.bytesOf c text config) (Machine.new, fun _ ↦ none) tr s)
    (hnamed : ∀ t ∈ tr, t.post.1.Named)
    (hwhole : ∀ t ∈ tr, ∀ inside, t.input.1 = .kill inside →
      ¬t.pre.1.Tears text config inside)
    (hdown : s.1.phase = .down)
    {forSegments forSnapshots : List (Name × List UInt8)}
    (hsegments : Listing s.2 forSegments) (hsnapshots : Listing s.2 forSnapshots) :
    s.2 MANIFEST = none ∨
      ∃ r, s.2.recover c text.fromSlice sc forSegments forSnapshots = some (.ok r) ∧
        r.state.config = config ∧ r.state.At r.nextSeq.val := by
  have hnew : Machine.new.Sane c config := Or.inl ⟨rfl, rfl, rfl⟩
  have hsane : s.1.Sane c config := by
    refine hrun.invariant_of (P := fun s ↦ s.1.Sane c config)
      (C := fun t ↦ t.post.1.Named ∧
        ∀ inside, t.input.1 = .kill inside → ¬t.pre.1.Tears text config inside)
      hnew ?_ fun t ht ↦ ⟨hnamed t ht, hwhole t ht⟩
    intro s move s' out h hstep hside
    obtain ⟨r, hr, heq⟩ := Option.map_eq_some_iff.mp hstep
    cases heq
    exact h.step hc htext hr hside.1 hside.2
  rw [Machine.Sane, hdown] at hsane
  have hpresents := (Machine.filed_of_run hc hsc hrun).presents
  have hrecover := hpresents.recover_eq (c := c) hsegments hsnapshots
  rcases hsane with ⟨hnone, -, -⟩ | hthere
  · have hread := hpresents.manifest.trans hnone
    exact Or.inl (Option.map_eq_none_iff.mp hread)
  · obtain ⟨o, hopen, henters⟩ := Resumable.opens hc (Or.inr hthere) 0
    have hmanifest : s.1.dir.manifest ≠ none := by
      rw [hthere.1]
      exact Option.some_ne_none _
    obtain ⟨r, hr, hconfig, hstate, hnext⟩ := recover_of_openInner hmanifest hopen
    refine Or.inr ⟨r, hrecover.trans hr, hconfig, ?_⟩
    rw [← hstate, ← hnext]
    exact henters.at_next

/-- The manifest is written, and the process is killed before it has made a segment. -/
theorem killed_folder_recovers_sample :
    ∃ f : Folder, f MANIFEST = some Machine.sampleManifest ∧
      (f MANIFEST = none ∨
        ∃ r, f.recover Bincode.codec Machine.sampleText.fromSlice Bincode.snapshotCodec
            [(MANIFEST, Machine.sampleManifest)] [(MANIFEST, Machine.sampleManifest)] =
              some (.ok r) ∧
          r.state.config = .sample 0 ∧ r.state.At r.nextSeq.val) := by
  have hfile : (FileCall.append MANIFEST Machine.sampleManifest).apply
      (Function.update (fun _ ↦ none) MANIFEST (some [])) =
        Function.update (fun _ ↦ none) MANIFEST (some Machine.sampleManifest) := by
    rw [FileCall.apply, Function.update_self, Function.update_idem, Option.getD_some,
      List.nil_append]
  have hlisting : Listing ((FileCall.append MANIFEST Machine.sampleManifest).apply
      (Function.update (fun _ ↦ none) MANIFEST (some [])))
      [(MANIFEST, Machine.sampleManifest)] := by
    rw [hfile]
    exact Listing.empty.update rfl _
  have hrun := Runs.run_play
    (Machine.stepFiles Bincode.snapshotCodec.bytesOf Bincode.codec Machine.sampleText (.sample 0))
    (Machine.new, fun _ ↦ none)
    [(.open 4096, none), (.call, none), (.call, none), (.kill none, none)]
  refine ⟨_, ?_, killed_folder_recovers Bincode.lawful Bincode.snapshot_lawful
    Machine.sampleText_lawful hrun (by decide +kernel) ?_ rfl hlisting hlisting⟩
  · exact (congrFun hfile MANIFEST).trans (Function.update_self _ _ _)
  · intro t ht inside hkill
    rcases List.mem_cons.mp ht with rfl | ht
    · cases hkill
    rcases List.mem_cons.mp ht with rfl | ht
    · cases hkill
    rcases List.mem_cons.mp ht with rfl | ht
    · cases hkill
    obtain rfl := List.mem_singleton.mp ht
    exact id

end DutchAuction
