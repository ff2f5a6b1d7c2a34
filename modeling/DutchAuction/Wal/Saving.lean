import DutchAuction.Library.Interrupted
import DutchAuction.Wal.Recovery

/-!
# The calls a snapshot makes on its files

A snapshot is written to a temporary file, synced, and renamed into place; then all but the newest
two are deleted, one after another. No reader looks at a temporary file, so of these calls only the
renaming and the deletions count, and neither can be cut off.

Wherever the list of calls is stopped, the snapshots are `Usable`: each is the state after the
command it is labelled with, and the newest still reaches back as far as the log needs it to. -/

namespace DutchAuction

/-- A call on the files of snapshots. -/
inductive SnapCall
  /-- Create the temporary file, -/
  | createTemp (seq : Seq)
  /-- write it -/
  | writeTemp (seq : Seq) (state : AuctionState)
  /-- and sync it. -/
  | syncTemp (seq : Seq)
  | rename (seq : Seq) (state : AuctionState)
  | remove (seq : Seq)

namespace SnapCall

def apply : SnapCall → Snapshots → Snapshots
  | createTemp _, snaps | writeTemp _ _, snaps | syncTemp _, snaps => snaps
  | rename seq state, snaps => snaps.upsert seq fun _ ↦ .ok ⟨seq, state⟩
  | remove seq, snaps => snaps.filter fun e ↦ e.1 ≠ seq

end SnapCall

/-- The calls on snapshots. One that is cut off has changed nothing a reader finds. -/
def snapCalls : Interrupted.Effect Snapshots SnapCall := ⟨SnapCall.apply, fun _ _ snaps ↦ snaps⟩

namespace Snapshots

def writeCalls (state : AuctionState) : List SnapCall :=
  match state.lastSeq with
  | none => []
  | some seq => [.createTemp seq, .writeTemp seq state, .syncTemp seq, .rename seq state]

def pruneCalls (snaps : Snapshots) (keep : ℕ) : List SnapCall :=
  (snaps.list.drop keep).map fun e ↦ .remove e.1

/-- What the snapshot thread does with a state. -/
def saveCalls (snaps : Snapshots) (state : AuctionState) : List SnapCall :=
  writeCalls state ++ (snapCalls.run (writeCalls state) snaps).pruneCalls 2

theorem write_calls (snaps : Snapshots) (state : AuctionState) :
    snapCalls.run (writeCalls state) snaps = (snaps.write state).2 := by
  rw [writeCalls, write]
  cases state.lastSeq with
  | none => rfl
  | some seq => rfl

theorem save_calls (snaps : Snapshots) (state : AuctionState) :
    snapCalls.run (snaps.saveCalls state) snaps = ((snaps.write state).2.prune 2).2 := by
  have hremove : ∀ (l : List (Seq × Except String Snapshot)) (s : Snapshots),
      (snapCalls.run (l.map fun e ↦ .remove e.1) s).entries =
        s.entries.filter fun e ↦ e.1 ∉ l.map Prod.fst := by
    intro l
    induction l with
    | nil =>
      intro s
      refine (List.filter_eq_self.mpr fun e _ ↦ ?_).symm
      exact decide_eq_true List.not_mem_nil
    | cons e l ih =>
      intro s
      rw [List.map_cons, Interrupted.Effect.run_cons, ih]
      show (s.entries.filter fun e' ↦ e'.1 ≠ e.1).filter _ = _
      rw [List.filter_filter]
      refine List.filter_congr fun e' _ ↦ ?_
      simp only [List.map_cons, List.mem_cons, not_or, Bool.decide_and, ne_eq, Bool.and_comm]
  rw [saveCalls, Interrupted.Effect.run_append, write_calls]
  refine OrdMap.ext ?_
  rw [pruneCalls, hremove, prune, pruneSome]
  dsimp only
  rw [OrdMap.entries_filter, List.take_of_length_le]
  rw [List.length_drop, list, List.length_reverse]
  exact Nat.sub_le _ _

/-! ## What a killed snapshot thread leaves

Nothing but what is older than the newest two is deleted, and that after the new file is in its
place, so the newest snapshot is there at any moment. -/

/-- Every file is the state of this auction after the command it is labelled with, and the newest
reaches back to position `n`, where the log starts. -/
structure Usable (snaps : Snapshots) (config : AuctionConfig) (n : ℕ) : Prop where
  files : ∀ k file, (k, file) ∈ snaps.entries → ∃ state, file = .ok ⟨k, state⟩ ∧
    state.At (k.val + 1) ∧ state.config = config ∧ k.val + 1 < 2 ^ 64
  covers : n = 0 ∨ ∃ k file, (k, file) ∈ snaps.entries ∧ n ≤ k.val + 1

variable {snaps t : Snapshots} {config : AuctionConfig} {n : ℕ} {state : AuctionState}

/-- A state that can be written to a file. -/
structure Savable (state : AuctionState) (config : AuctionConfig) : Prop where
  config : state.config = config
  last : ∀ k ∈ state.lastSeq, k.val + 1 < 2 ^ 64

theorem Usable.rename (h : snaps.Usable config n) {seq : Seq} (hstate : Savable state config)
    (hlast : state.lastSeq = some seq) :
    Usable (snaps.upsert seq fun _ ↦ .ok ⟨seq, state⟩) config n where
  files k file hmem := by
    rcases OrdMap.mem_entries_upsert hmem with ⟨old, heq⟩ | ⟨-, hmem⟩
    · obtain ⟨rfl, rfl⟩ := Prod.mk.inj heq
      refine ⟨state, rfl, fun last hl ↦ ?_, hstate.config, hstate.last k hlast⟩
      cases hl.symm.trans hlast
      rfl
    · exact h.files k file hmem
  covers := by
    refine h.covers.imp_right ?_
    rintro ⟨k, file, hmem, hle⟩
    obtain ⟨file', hmem'⟩ := OrdMap.key_mem_upsert hmem seq fun _ ↦ .ok ⟨seq, state⟩
    exact ⟨k, file', hmem', hle⟩

theorem newest_not_pruned {l : List (Seq × Except String Snapshot)}
    {newest : Seq × Except String Snapshot} (h : snaps.entries = l ++ [newest]) {seq : Seq}
    (hcall : .remove seq ∈ snaps.pruneCalls 2) : seq < newest.1 := by
  obtain ⟨e, he, heq⟩ := List.mem_map.mp hcall
  cases heq
  have hsorted := snaps.sorted
  rw [h, List.pairwise_append] at hsorted
  rw [list, h, List.reverse_append, List.reverse_singleton, List.singleton_append,
    List.drop_succ_cons] at he
  exact hsorted.2.2 e (List.mem_reverse.mp (List.mem_of_mem_drop he)) newest
    (List.mem_singleton_self _)

theorem Usable.prune (h : snaps.Usable config n)
    (ht : snapCalls.Left (snaps.pruneCalls 2) snaps t) : t.Usable config n := by
  rcases List.eq_nil_or_concat' snaps.entries with hnil | ⟨l, newest, hentries⟩
  · have hcalls : snaps.pruneCalls 2 = [] := by
      rw [pruneCalls, list, hnil]
      rfl
    rw [hcalls] at ht
    rw [Interrupted.Effect.left_nil.mp ht]
    exact h
  · have hkept : (∀ e ∈ t.entries, e ∈ snaps.entries) ∧ newest ∈ t.entries := by
      refine ht.invariant (P := fun t : Snapshots ↦
        (∀ e ∈ t.entries, e ∈ snaps.entries) ∧ newest ∈ t.entries)
        ⟨fun _ ↦ id, hentries ▸ List.mem_append_right _ (List.mem_singleton_self _)⟩ ?_
        fun _ _ _ _ ↦ id
      rintro call hcall s ⟨hsub, hnewest⟩
      obtain ⟨e, -, rfl⟩ := List.mem_map.mp hcall
      have hlt := newest_not_pruned hentries hcall
      exact ⟨fun e' he' ↦ hsub e' (List.mem_of_mem_filter he'),
        List.mem_filter.mpr ⟨hnewest, decide_eq_true hlt.ne'⟩⟩
    refine ⟨fun k file hmem ↦ h.files k file (hkept.1 _ hmem), h.covers.imp_right ?_⟩
    rintro ⟨k, file, hmem, hle⟩
    refine ⟨newest.1, newest.2, hkept.2, hle.trans (Nat.succ_le_succ ?_)⟩
    rw [hentries] at hmem
    rcases List.mem_append.mp hmem with hmem | hmem
    · have hsorted := snaps.sorted
      rw [hentries, List.pairwise_append] at hsorted
      exact (hsorted.2.2 _ hmem newest (List.mem_singleton_self _)).le
    · rw [← List.mem_singleton.mp hmem]

/-- **A killed snapshot thread** leaves usable snapshots. -/
theorem Usable.save (h : snaps.Usable config n) (hstate : Savable state config)
    (ht : snapCalls.Left (snaps.saveCalls state) snaps t) : t.Usable config n := by
  have hwrite : ∀ t, snapCalls.Left (writeCalls state) snaps t → t.Usable config n := by
    intro t ht
    refine ht.invariant (P := fun t : Snapshots ↦ t.Usable config n) h (fun call hcall s hs ↦ ?_)
      fun _ _ _ _ ↦ id
    rw [writeCalls] at hcall
    split at hcall
    · exact absurd hcall List.not_mem_nil
    · rename_i seq hlast
      simp only [List.mem_cons, List.not_mem_nil, or_false] at hcall
      rcases hcall with rfl | rfl | rfl | rfl
      · exact hs
      · exact hs
      · exact hs
      · exact hs.rename hstate hlast
  rcases Interrupted.Effect.left_append.mp ht with ht | ht
  · exact hwrite t ht
  · exact (hwrite _ (Interrupted.Effect.Left.run _ _)).prune ht

theorem Usable.latestUsable (h : snaps.Usable config n) {s : Snapshot}
    (hs : snaps.latestUsable = some s) : s.state.At (s.seq.val + 1) ∧ s.state.config = config ∧
      s.seq.val + 1 < 2 ^ 64 ∧ n ≤ s.seq.val + 1 ∧
      ∃ k file, (k, file) ∈ snaps.entries ∧ k = s.seq := by
  obtain ⟨k, hmem, hnewest⟩ := latestUsable_eq_some hs
  obtain ⟨state, heq, hat, hconfig, hlast⟩ := h.files k _ hmem
  cases heq
  refine ⟨hat, hconfig, hlast, ?_, _, _, hmem, rfl⟩
  rcases h.covers with rfl | ⟨k', file, hmem', hle⟩
  · exact Nat.zero_le _
  · obtain ⟨state', rfl, -⟩ := h.files k' file hmem'
    have hle' : k'.val ≤ k.val := hnewest k' _ hmem'
    exact hle.trans (Nat.succ_le_succ hle')

end Snapshots

end DutchAuction
