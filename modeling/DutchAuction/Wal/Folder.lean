import DutchAuction.Library.Decimal
import DutchAuction.Library.Sorting
import DutchAuction.Wal.Calls
import DutchAuction.Wal.Saving
import DutchAuction.Wal.SnapshotFile

/-!
# The files of a log directory

A directory on disk is a number of files under their names, which a listing gives in any order. The
program finds its segments and its snapshots by their names, a number in decimal between two fixed
texts, and sorts what it finds by that number. A snapshot that is being written has another name.

`Presents` says that a folder of files is the directory of the model: the files have the names and
the contents they should, and no other file has a name that is taken for one of them. However the
folder is listed, a reader then finds the segments and the snapshots of the directory
(`Presents.segments_eq`, `Presents.list_eq`).
-/

namespace DutchAuction

/-! ## Names

A number in decimal between two fixed texts. The width is eight digits for segments and twenty for
snapshots, and a number that needs more is written in full. -/

/-- The name of a file. -/
abbrev Name := List Char

namespace Name

/-- What stands between two texts, if the name begins with the one and ends with the other. -/
def between (front back : List Char) (name : Name) : Option (List Char) :=
  if front.isPrefixOf name then
    let rest := name.drop front.length
    if back.isSuffixOf rest then some (rest.take (rest.length - back.length)) else none
  else none

/-- The first character and the last. -/
def ends (name : Name) : Option Char × Option Char := (name.head?, name.getLast?)

theorem between_append (front back mid : List Char) :
    between front back (front ++ (mid ++ back)) = some mid := by
  rw [between, if_pos (List.isPrefixOf_iff_prefix.mpr (List.prefix_append _ _)), List.drop_left]
  dsimp only
  rw [if_pos (List.isSuffixOf_iff_suffix.mpr (List.suffix_append _ _)), List.length_append,
    Nat.add_sub_cancel, List.take_left]

theorem eq_of_between {front back mid : List Char} {name : Name}
    (h : between front back name = some mid) : name = front ++ (mid ++ back) := by
  rw [between] at h
  split_ifs at h with hfront
  dsimp only at h
  split_ifs at h with hback
  obtain ⟨rest, rfl⟩ := List.isPrefixOf_iff_prefix.mp hfront
  rw [List.drop_left] at h hback
  obtain ⟨mid', rfl⟩ := List.isSuffixOf_iff_suffix.mp hback
  rw [List.length_append, Nat.add_sub_cancel, List.take_left] at h
  rw [Option.some.inj h]

theorem ends_append {front back : List Char} (hfront : front ≠ []) (hback : back ≠ [])
    (mid : List Char) : ends (front ++ (mid ++ back)) = (front.head?, back.getLast?) := by
  rw [ends, List.head?_append_of_ne_nil _ hfront,
    List.getLast?_append_of_ne_nil _ (List.append_ne_nil_of_right_ne_nil _ hback),
    List.getLast?_append_of_ne_nil _ hback]

end Name

/-- The name of a segment. -/
def segmentPath (index : ℕ) : Name :=
  "wal-".toList ++ (Decimal.padded 8 index ++ ".log".toList)

/-- The index in the name of a segment, which has eight digits. -/
def segmentIndex (name : Name) : Option ℕ :=
  (Name.between "wal-".toList ".log".toList name).bind fun digits ↦
    if digits.length ≠ 8 then none else Decimal.parse (2 ^ 32) digits

/-- The name of a snapshot. -/
def snapshotPath (seq : Seq) : Name :=
  "snapshot-".toList ++ (Decimal.padded 20 seq.val ++ ".snap".toList)

/-- The position in the name of a snapshot. -/
def snapshotSeq (name : Name) : Option Seq :=
  (Name.between "snapshot-".toList ".snap".toList name).bind fun digits ↦
    (Decimal.parse (2 ^ 64) digits).map U64.saturate

/-- The name of a snapshot that is being written. -/
def partialPath (seq : Seq) : Name :=
  "snapshot-".toList ++ (Decimal.padded 20 seq.val ++ ".snap.partial".toList)

def MANIFEST : Name := "manifest.json".toList

/-! ### What is found under a name

A name is taken for a segment if it has the two texts and exactly eight digits between them, so a
segment whose index needs nine is not found. A snapshot is always found. -/

theorem ends_segmentPath (index : ℕ) : (segmentPath index).ends = (some 'w', some 'g') :=
  Name.ends_append (by decide) (by decide) _

theorem ends_snapshotPath (seq : Seq) : (snapshotPath seq).ends = (some 's', some 'p') :=
  Name.ends_append (by decide) (by decide) _

theorem ends_partialPath (seq : Seq) : (partialPath seq).ends = (some 's', some 'l') :=
  Name.ends_append (by decide) (by decide) _

theorem ends_manifest : Name.ends MANIFEST = (some 'm', some 'n') := rfl

theorem segmentIndex_segmentPath (index : ℕ) :
    segmentIndex (segmentPath index) = if index < SEGMENTS then some index else none := by
  rw [segmentIndex, segmentPath, Name.between_append, Option.bind_some]
  have hdigits : (Decimal.padded 8 index).length = 8 ↔ index < SEGMENTS :=
    Decimal.length_padded_iff (by decide)
  by_cases hindex : index < SEGMENTS
  · have hbound : index < 2 ^ 32 := hindex.trans (by decide)
    rw [if_pos hindex, if_neg (not_not_intro (hdigits.mpr hindex)), Decimal.parse_padded hbound]
  · rw [if_neg hindex, if_pos fun hlen ↦ hindex (hdigits.mp hlen)]

theorem ends_of_segmentIndex {name : Name} (h : segmentIndex name ≠ none) :
    name.ends = (some 'w', some 'g') := by
  obtain ⟨_, hfound⟩ := Option.ne_none_iff_exists'.mp h
  obtain ⟨digits, hmid, -⟩ := Option.bind_eq_some_iff.mp hfound
  rw [Name.eq_of_between hmid]
  exact Name.ends_append (by decide) (by decide) _

theorem snapshotSeq_snapshotPath (seq : Seq) : snapshotSeq (snapshotPath seq) = some seq := by
  have hparse : Decimal.parse (2 ^ 64) (Decimal.padded 20 seq.val) = some seq.val :=
    Decimal.parse_padded seq.val_lt
  exact Option.bind_eq_some_iff.mpr
    ⟨_, Name.between_append _ _ _, Option.map_eq_some_iff.mpr ⟨_, hparse, U64.saturate_val seq⟩⟩

theorem ends_of_snapshotSeq {name : Name} (h : snapshotSeq name ≠ none) :
    name.ends = (some 's', some 'p') := by
  obtain ⟨_, hfound⟩ := Option.ne_none_iff_exists'.mp h
  obtain ⟨digits, hmid, -⟩ := Option.bind_eq_some_iff.mp hfound
  rw [Name.eq_of_between hmid]
  exact Name.ends_append (by decide) (by decide) _

theorem segmentPath_injective : Function.Injective segmentPath := fun i j h ↦ by
  rw [segmentPath, segmentPath] at h
  exact Decimal.padded_injective 8 (List.append_cancel_right (List.append_cancel_left h))

theorem snapshotPath_injective : Function.Injective snapshotPath := fun i j h ↦ by
  have hpadded : Decimal.padded 20 i.val = Decimal.padded 20 j.val :=
    List.append_cancel_right (List.append_cancel_left h)
  exact U64.ext (Decimal.padded_injective 20 hpadded)

theorem partialPath_injective : Function.Injective partialPath := fun i j h ↦ by
  have hpadded : Decimal.padded 20 i.val = Decimal.padded 20 j.val :=
    List.append_cancel_right (List.append_cancel_left h)
  exact U64.ext (Decimal.padded_injective 20 hpadded)

/-- **The names of segments sort as their indices.** -/
theorem segmentPath_lt_iff {i j : ℕ} (hi : i < SEGMENTS) (hj : j < SEGMENTS) :
    segmentPath i < segmentPath j ↔ i < j := by
  have hdigits : ∀ index < SEGMENTS, (Decimal.padded 8 index).length = 8 := fun index ↦
    (Decimal.length_padded_iff (by decide)).mpr
  rw [segmentPath, segmentPath,
    Decimal.lt_between_iff _ _ ((hdigits i hi).trans (hdigits j hj).symm)]
  exact Decimal.padded_lt_iff (by decide) hi hj

/-! ## Folders -/

/-- The files of a directory, by name. -/
abbrev Folder := Name → Option (List UInt8)

/-- A listing gives every file once, in some order. -/
structure Listing (f : Folder) (entries : List (Name × List UInt8)) : Prop where
  nodup : (entries.map Prod.fst).Nodup
  mem : ∀ e, e ∈ entries ↔ f e.1 = some e.2

theorem Listing.empty : Listing (fun _ ↦ none) [] :=
  ⟨List.nodup_nil, fun _ ↦ ⟨fun hmem ↦ absurd hmem List.not_mem_nil, fun heq ↦ absurd heq.symm
    (Option.some_ne_none _)⟩⟩

theorem Listing.update {f : Folder} {entries : List (Name × List UInt8)} (hl : Listing f entries)
    {name : Name} (hnew : f name = none) (bytes : List UInt8) :
    Listing (Function.update f name (some bytes)) ((name, bytes) :: entries) where
  nodup := by
    refine List.nodup_cons.mpr ⟨fun hmem ↦ ?_, hl.nodup⟩
    obtain ⟨e, he, rfl⟩ := List.mem_map.mp hmem
    rw [(hl.mem e).mp he] at hnew
    cases hnew
  mem e := by
    rw [List.mem_cons, hl.mem]
    by_cases hname : e.1 = name
    · rw [hname, Function.update_self, hnew]
      constructor
      · rintro (rfl | hnone)
        · rfl
        · cases hnone
      · exact fun heq ↦ Or.inl (Prod.ext hname (Option.some.inj heq).symm)
    · rw [Function.update_of_ne hname]
      exact or_iff_right fun heq ↦ hname (congrArg Prod.fst heq)

namespace Folder

/-- Every segment in a listing, in sequence order. -/
def segments (entries : List (Name × List UInt8)) : List (ℕ × List UInt8) :=
  (entries.filterMap fun e ↦ (segmentIndex e.1).map fun index ↦ (index, e.2)).insertionSort
    fun a b ↦ a.1 ≤ b.1

/-- Snapshots in a listing, newest first. -/
def list (entries : List (Name × List UInt8)) : List (Seq × List UInt8) :=
  (entries.filterMap fun e ↦ (snapshotSeq e.1).map fun seq ↦ (seq, e.2)).insertionSort
    fun a b ↦ OrderDual.toDual a.1 ≤ OrderDual.toDual b.1

/-- The folder `f` is the directory `dir`, where `fromSlice` reads a manifest and `sc` a snapshot.
Other files are there as they may be. -/
structure Presents (fromSlice : List UInt8 → Except String AuctionConfig) (sc : SnapshotCodec)
    (f : Folder) (dir : Dir) : Prop where
  manifest : (f MANIFEST).map fromSlice = dir.manifest
  segs : ∀ index, f (segmentPath index) = dir.segs.get? index
  snaps : ∀ seq, (f (snapshotPath seq)).map (SnapshotFile.read sc) = dir.snaps.get? seq
  /-- No other file is taken for a segment, -/
  segment : ∀ name, f name ≠ none → segmentIndex name ≠ none → ∃ index, name = segmentPath index
  /-- and none for a snapshot. -/
  snapshot : ∀ name, f name ≠ none → snapshotSeq name ≠ none → ∃ seq, name = snapshotPath seq

variable {fromSlice : List UInt8 → Except String AuctionConfig} {sc : SnapshotCodec}
  {f : Folder} {dir : Dir} {entries : List (Name × List UInt8)} {name : Name}

/-! ### What a reader finds -/

theorem found_perm {ι : Type*} {number : Name → Option ι} (path : ι → Name)
    (hl : Listing f entries)
    (hnumber : ∀ name, f name ≠ none → ∀ i, number name = some i → name = path i)
    {target : List (ι × List UInt8)} (hnodup : target.Nodup)
    (hmem : ∀ e, e ∈ target ↔ number (path e.1) = some e.1 ∧ f (path e.1) = some e.2) :
    (entries.filterMap fun e ↦ (number e.1).map fun i ↦ (i, e.2)).Perm target := by
  have hpath : ∀ e ∈ entries, ∀ i, number e.1 = some i → e.1 = path i := fun e he ↦
    hnumber e.1 (by rw [(hl.mem e).mp he]; exact Option.some_ne_none _)
  have hnodup' : (entries.filterMap fun e ↦ (number e.1).map fun i ↦ (i, e.2)).Nodup := by
    refine List.pairwise_filterMap.mpr ((List.pairwise_map.mp hl.nodup).imp_of_mem ?_)
    intro a b ha hb hne e he e' he' heq
    obtain ⟨i, hi, rfl⟩ := Option.map_eq_some_iff.mp he
    obtain ⟨j, hj, rfl⟩ := Option.map_eq_some_iff.mp he'
    obtain rfl := (Prod.mk.inj heq).1
    exact hne ((hpath a ha i hi).trans (hpath b hb i hj).symm)
  refine (List.perm_ext_iff_of_nodup hnodup' hnodup).mpr fun e ↦ ?_
  rw [hmem, List.mem_filterMap]
  constructor
  · rintro ⟨a, ha, he⟩
    obtain ⟨i, hi, rfl⟩ := Option.map_eq_some_iff.mp he
    have hname := hpath a ha i hi
    exact ⟨hname ▸ hi, hname ▸ (hl.mem a).mp ha⟩
  · rintro ⟨hnum, hthere⟩
    exact ⟨(path e.1, e.2), (hl.mem _).mpr hthere, by rw [hnum]; rfl⟩

/-- **The segments that a listing gives are those of the directory**, in whatever order it comes. -/
theorem Presents.segments_eq (h : Presents fromSlice sc f dir) (hl : Listing f entries) :
    segments entries = dir.segments := by
  have hsorted : dir.segments.Pairwise fun a b ↦ a.1 < b.1 := dir.segs.sorted.filter _
  refine Sorting.insertionSort_key Prod.fst (found_perm segmentPath hl ?_ ?_ ?_) hsorted
  · intro name hthere i hi
    obtain ⟨j, rfl⟩ := h.segment name hthere (by rw [hi]; exact Option.some_ne_none _)
    rw [segmentIndex_segmentPath] at hi
    split_ifs at hi with hlt
    rw [Option.some.inj hi]
  · exact hsorted.imp fun hlt heq ↦ absurd (congrArg Prod.fst heq) hlt.ne
  · intro e
    rw [Dir.segments, List.mem_filter, decide_eq_true_iff, h.segs, OrdMap.get?_eq_some,
      segmentIndex_segmentPath]
    split_ifs with hlt
    · exact ⟨fun hmem ↦ ⟨rfl, hmem.1⟩, fun hmem ↦ ⟨hmem.2, hlt⟩⟩
    · exact ⟨fun hmem ↦ absurd hmem.2 hlt, fun hmem ↦ hmem.1.elim⟩

/-- **The snapshots that a listing gives are those of the directory**, newest first. -/
theorem Presents.list_eq (h : Presents fromSlice sc f dir) (hl : Listing f entries) :
    (list entries).map (fun e ↦ (e.1, SnapshotFile.read sc e.2)) = dir.snaps.list := by
  have hnumber : ∀ name, f name ≠ none → ∀ seq, snapshotSeq name = some seq →
      name = snapshotPath seq := by
    intro name hthere seq hseq
    obtain ⟨j, rfl⟩ := h.snapshot name hthere (by rw [hseq]; exact Option.some_ne_none _)
    rw [snapshotSeq_snapshotPath] at hseq
    rw [Option.some.inj hseq]
  have hread : ∀ e : Seq × Except String Snapshot, e ∈ dir.snaps.entries ↔
      ∃ bytes, f (snapshotPath e.1) = some bytes ∧ SnapshotFile.read sc bytes = e.2 := by
    intro e
    rw [← OrdMap.get?_eq_some, ← h.snaps, Option.map_eq_some_iff]
  -- The files behind the entries, newest first.
  obtain ⟨files, hfiles, hmem⟩ : ∃ files : List (Seq × List UInt8),
      files.map (fun e ↦ (e.1, SnapshotFile.read sc e.2)) = dir.snaps.entries.reverse ∧
        ∀ e ∈ files, f (snapshotPath e.1) = some e.2 := by
    have hall : ∀ e ∈ dir.snaps.entries.reverse, ∃ bytes, f (snapshotPath e.1) = some bytes ∧
        SnapshotFile.read sc bytes = e.2 := fun e he ↦ (hread e).mp (List.mem_reverse.mp he)
    generalize dir.snaps.entries.reverse = l at hall
    induction l with
    | nil => exact ⟨[], rfl, fun _ he ↦ absurd he List.not_mem_nil⟩
    | cons e l ih =>
      obtain ⟨bytes, hthere, hbytes⟩ := hall e List.mem_cons_self
      obtain ⟨files, hfiles, hmem⟩ := ih fun e' he' ↦ hall e' (List.mem_cons_of_mem e he')
      refine ⟨(e.1, bytes) :: files, by rw [List.map_cons, hfiles, hbytes], fun e' he' ↦ ?_⟩
      rcases List.mem_cons.mp he' with rfl | he'
      · exact hthere
      · exact hmem e' he'
  have hsorted : files.Pairwise fun a b ↦ b.1 < a.1 := by
    have hdown : dir.snaps.entries.reverse.Pairwise fun a b ↦ b.1 < a.1 :=
      List.pairwise_reverse.mpr dir.snaps.sorted
    rw [← hfiles] at hdown
    exact List.pairwise_map.mp hdown
  have hperm := found_perm snapshotPath hl hnumber
    (hsorted.imp fun hlt heq ↦ absurd (congrArg Prod.fst heq) hlt.ne') fun e ↦ by
      refine ⟨fun he ↦ ⟨snapshotSeq_snapshotPath e.1, hmem e he⟩, fun he ↦ ?_⟩
      have hentry : (e.1, SnapshotFile.read sc e.2) ∈ dir.snaps.entries.reverse :=
        List.mem_reverse.mpr ((hread _).mpr ⟨e.2, he.2, rfl⟩)
      rw [← hfiles] at hentry
      obtain ⟨e', he', heq⟩ := List.mem_map.mp hentry
      have hkey : e'.1 = e.1 := (Prod.mk.inj heq).1
      have hbytes := (hmem e' he').symm.trans (hkey ▸ he.2)
      rwa [← Prod.ext hkey (Option.some.inj hbytes)]
  have hlist : list entries = files :=
    Sorting.insertionSort_key (fun e : Seq × List UInt8 ↦ OrderDual.toDual e.1) hperm hsorted
  rw [hlist, hfiles]
  rfl

end Folder

end DutchAuction
