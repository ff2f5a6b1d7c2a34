import DutchAuction.Core.Image
import DutchAuction.Library.Layout
import DutchAuction.Wal.Bincode

/-!
# How a state becomes bytes

A snapshot is a position and the state after it. How the two become bytes is not the log's own
doing, so it is a parameter (`SnapshotCodec`); what is relied on is that a state whose numbers and
lengths are words of 64 bits reads back (`SnapshotCodec.Lawful`), and where files may be cut short,
that bytes which break off do not (`SnapshotCodec.RefusesTorn`).

The fixed-width binary encoding is such a codec (`Bincode.snapshot_lawful`). Fields follow one
another in the order they are declared in, a list or a map is its length in eight bytes and then its
elements, an optional value is a byte that says whether it is there, and a variant is its tag in
four.
-/

namespace DutchAuction

/-- How a state at its position becomes bytes and back, and how bytes are summed. -/
structure SnapshotCodec where
  serialize : Seq → StateImage → List UInt8
  /-- The position and the state, or why the bytes are none. -/
  deserialize : List UInt8 → Except String (Seq × StateImage)
  hash : List UInt8 → UInt32

/-- What a reader of snapshots relies on. -/
structure SnapshotCodec.Lawful (sc : SnapshotCodec) : Prop where
  round_trip : ∀ seq image, StateImage.Fits image →
    sc.deserialize (sc.serialize seq image) = .ok (seq, image)

/-- What was written of a state is refused if it breaks off. -/
def SnapshotCodec.RefusesTorn (sc : SnapshotCodec) : Prop :=
  ∀ seq image front, StateImage.Fits image → front <+: sc.serialize seq image →
    front ≠ sc.serialize seq image → ∃ detail, sc.deserialize front = .error detail

/-! ## The fixed-width binary encoding -/

namespace Bincode

open Serial (Format Layout Steady)

/-- The tag of the variant of this number. -/
def variant (k : Fin 16) : {n : ℕ // n < 256 ^ 4} := ⟨k.val, k.isLt.trans (by decide)⟩

def status : Format Status where
  put
    | .pending => tag.put (variant 0)
    | .live => tag.put (variant 1)
    | .cleared => tag.put (variant 2)
    | .cancelled => tag.put (variant 3)
  get bs := (tag.get bs).bind fun r ↦
    match r.1.val with
    | 0 => some (.pending, r.2)
    | 1 => some (.live, r.2)
    | 2 => some (.cleared, r.2)
    | 3 => some (.cancelled, r.2)
    | _ => none
  get_put status rest := by
    cases status with
    | pending => simp [variant, Format.get_put]
    | live => simp [variant, Format.get_put]
    | cleared => simp [variant, Format.get_put]
    | cancelled => simp [variant, Format.get_put]

def scheduleKind : Format ScheduleKind where
  put
    | .stepped stepDuration stepSize =>
      tag.put (variant 0) ++ (u64.pair i64).put (stepDuration, stepSize)
    | .linear ratePerSec => tag.put (variant 1) ++ i64.put ratePerSec
  get bs := (tag.get bs).bind fun r ↦
    match r.1.val with
    | 0 => ((u64.pair i64).get r.2).map fun r ↦ (.stepped r.1.1 r.1.2, r.2)
    | 1 => (i64.get r.2).map fun r ↦ (.linear r.1, r.2)
    | _ => none
  get_put kind rest := by
    cases kind with
    | stepped stepDuration stepSize => simp [variant, Format.get_put]
    | linear ratePerSec => simp [variant, Format.get_put]

def rejectReason : Format RejectReason where
  put
    | .notLive => tag.put (variant 0)
    | .priceMoved serverPrice => tag.put (variant 1) ++ i64.put serverPrice
    | .supplyExhausted => tag.put (variant 2)
    | .insufficientCollateral => tag.put (variant 3)
    | .zeroQuantity => tag.put (variant 4)
    | .rateLimited => tag.put (variant 5)
    | .busy => tag.put (variant 6)
    | .limitAboveClock serverPrice => tag.put (variant 7) ++ i64.put serverPrice
    | .unfilled => tag.put (variant 8)
    | .unknownBid => tag.put (variant 9)
  get bs := (tag.get bs).bind fun r ↦
    match r.1.val with
    | 0 => some (.notLive, r.2)
    | 1 => (i64.get r.2).map fun r ↦ (.priceMoved r.1, r.2)
    | 2 => some (.supplyExhausted, r.2)
    | 3 => some (.insufficientCollateral, r.2)
    | 4 => some (.zeroQuantity, r.2)
    | 5 => some (.rateLimited, r.2)
    | 6 => some (.busy, r.2)
    | 7 => (i64.get r.2).map fun r ↦ (.limitAboveClock r.1, r.2)
    | 8 => some (.unfilled, r.2)
    | 9 => some (.unknownBid, r.2)
    | _ => none
  get_put reason rest := by
    cases reason with
    | notLive => simp [variant, Format.get_put]
    | priceMoved serverPrice => simp [variant, Format.get_put]
    | supplyExhausted => simp [variant, Format.get_put]
    | insufficientCollateral => simp [variant, Format.get_put]
    | zeroQuantity => simp [variant, Format.get_put]
    | rateLimited => simp [variant, Format.get_put]
    | busy => simp [variant, Format.get_put]
    | limitAboveClock serverPrice => simp [variant, Format.get_put]
    | unfilled => simp [variant, Format.get_put]
    | unknownBid => simp [variant, Format.get_put]

def outcome : Format Outcome where
  put
    | .queued qty => tag.put (variant 0) ++ u64.put qty
    | .resting qty => tag.put (variant 1) ++ u64.put qty
    | .filled qty price => tag.put (variant 2) ++ (u64.pair i64).put (qty, price)
    | .rejected reason => tag.put (variant 3) ++ rejectReason.put reason
    | .cancelled => tag.put (variant 4)
    | .filledThenCancelled qty price => tag.put (variant 5) ++ (u64.pair i64).put (qty, price)
  get bs := (tag.get bs).bind fun r ↦
    match r.1.val with
    | 0 => (u64.get r.2).map fun r ↦ (.queued r.1, r.2)
    | 1 => (u64.get r.2).map fun r ↦ (.resting r.1, r.2)
    | 2 => ((u64.pair i64).get r.2).map fun r ↦ (.filled r.1.1 r.1.2, r.2)
    | 3 => (rejectReason.get r.2).map fun r ↦ (.rejected r.1, r.2)
    | 4 => some (.cancelled, r.2)
    | 5 => ((u64.pair i64).get r.2).map fun r ↦ (.filledThenCancelled r.1.1 r.1.2, r.2)
    | _ => none
  get_put outcome rest := by
    cases outcome with
    | queued qty => simp [variant, Format.get_put]
    | resting qty => simp [variant, Format.get_put]
    | filled qty price => simp [variant, Format.get_put]
    | rejected reason => simp [variant, Format.get_put]
    | cancelled => simp [variant, Format.get_put]
    | filledThenCancelled qty price => simp [variant, Format.get_put]

def auctionConfig : Format AuctionConfig :=
  (uuid.pair (u64.pair ((i64.pair (i64.pair scheduleKind)).pair (u64.pair u64)))).via
    (fun r ↦ ⟨r.1, r.2.1, ⟨r.2.2.1.1, r.2.2.1.2.1, r.2.2.1.2.2⟩, r.2.2.2.1, r.2.2.2.2⟩)
    (fun c ↦ (c.auctionId, c.totalSupply,
      (c.schedule.startPrice, c.schedule.floorPrice, c.schedule.kind), c.batchWindow,
      c.priceTolerance))
    fun _ ↦ rfl

def collateral : Format Collateral :=
  (i64.pair i64).via (fun r ↦ ⟨r.1, r.2⟩) (fun c ↦ (c.limit, c.committed)) fun _ ↦ rfl

/-- A number of 64 bits. -/
def word : Layout ℕ := Layout.nat 8

def fill : Layout Fill :=
  (word.pair (u64.pair (uuid.pair (uuid.pair (u64.pair i64)))).layout).via
    (fun r ↦ ⟨r.1, r.2.1, r.2.2.1, r.2.2.2.1, r.2.2.2.2.1, r.2.2.2.2.2⟩)
    (fun f ↦ (f.id, f.seq, f.participant, f.key, f.qty, f.price)) fun _ ↦ rfl

def restingBid : Layout RestingBid :=
  (u64.pair (uuid.pair (uuid.pair (u64.pair i64)))).layout.via
    (fun r ↦ ⟨r.1, r.2.1, r.2.2.1, r.2.2.2.1, r.2.2.2.2⟩)
    (fun b ↦ (b.seq, b.participant, b.key, b.qty, b.limit)) fun _ ↦ rfl

def priceLadder : Layout PriceLadder :=
  ((Layout.ordMap 8 i64.layout (restingBid.list 8)).pair u64.layout).via
    (fun r ↦ ⟨r.1, r.2⟩) (fun l ↦ (l.levels, l.totalQty)) fun _ ↦ rfl

def pendingBid : Layout PendingBid :=
  ((u64.pair (uuid.pair (uuid.pair (u64.pair (i64.pair i64))))).layout.pair
      i64.layout.option).via
    (fun r ↦ ⟨r.1.1, r.1.2.1, r.1.2.2.1, r.1.2.2.2.1, r.1.2.2.2.2.1, r.1.2.2.2.2.2, r.2⟩)
    (fun b ↦ ((b.seq, b.participant, b.key, b.qty, b.priority, b.reservePrice), b.restingLimit))
    fun _ ↦ rfl

def openWindow : Layout OpenWindow :=
  (u64.layout.pair (i64.layout.pair (pendingBid.list 8))).via
    (fun r ↦ ⟨r.1, r.2.1, r.2.2⟩) (fun w ↦ (w.index, w.price, w.bids)) fun _ ↦ rfl

def stateImage : Layout StateImage :=
  (auctionConfig.layout.pair (status.layout.pair (u64.layout.pair (i64.layout.option.pair
    ((fill.list 8).pair (word.pair (priceLadder.pair (openWindow.option.pair
      ((Layout.ordMap 8 uuid.layout outcome.layout).pair
        ((Layout.ordMap 8 uuid.layout collateral.layout).pair
          (u64.layout.option.pair u64.layout))))))))))).via
    (fun r ↦ ⟨r.1, r.2.1, r.2.2.1, r.2.2.2.1, r.2.2.2.2.1, r.2.2.2.2.2.1, r.2.2.2.2.2.2.1,
      r.2.2.2.2.2.2.2.1, r.2.2.2.2.2.2.2.2.1, r.2.2.2.2.2.2.2.2.2.1, r.2.2.2.2.2.2.2.2.2.2.1,
      r.2.2.2.2.2.2.2.2.2.2.2⟩)
    (fun i ↦ (i.config, i.status, i.supplyRemaining, i.clearingPrice, i.fills, i.nextFillId,
      i.resting, i.window, i.outcomes, i.collateral, i.lastSeq, i.now))
    fun _ ↦ rfl

/-- A position, and the state after it. -/
def snapshot : Layout (Seq × StateImage) := u64.layout.pair stateImage

theorem fits_snapshot (seq : Seq) {i : StateImage} (h : i.Fits) : snapshot.Fits (seq, i) :=
  ⟨trivial, trivial, trivial, trivial, fun _ _ ↦ trivial,
    ⟨h.fills, fun f hf ↦ ⟨h.ids f hf, trivial⟩⟩, h.nextFillId,
    ⟨⟨h.levels, fun e he ↦ ⟨trivial, h.level e he, fun _ _ ↦ trivial⟩⟩, trivial⟩,
    fun w hw ↦ ⟨trivial, trivial, h.window w hw, fun _ _ ↦ ⟨trivial, fun _ _ ↦ trivial⟩⟩,
    ⟨h.outcomes, fun _ _ ↦ ⟨trivial, trivial⟩⟩, ⟨h.collateral, fun _ _ ↦ ⟨trivial, trivial⟩⟩,
    fun _ _ ↦ trivial, trivial⟩

/-! ### Nothing reads ahead

A variant is read by its tag and then by the fields of that one, everything else field by field. -/

theorem steady_u64 : Steady u64.get := Serial.steady_via (Serial.steady_le 8) _ _ _

theorem steady_i64 : Steady i64.get := Serial.steady_via (Serial.steady_le 8) _ _ _

theorem steady_uuid : Steady uuid.get :=
  Serial.steady_via (Serial.steady_pair (Serial.steady_const _) (Serial.steady_be 16)) _ _ _

theorem steady_tag : Steady tag.get := Serial.steady_le 4

theorem steady_status : Steady status.get := by
  refine steady_tag.bind fun k ↦ ?_
  dsimp only
  generalize k.val = n
  rcases n with _ | _ | _ | _ | n
  · exact Serial.steady_some _
  · exact Serial.steady_some _
  · exact Serial.steady_some _
  · exact Serial.steady_some _
  · exact Serial.steady_none

theorem steady_scheduleKind : Steady scheduleKind.get := by
  refine steady_tag.bind fun k ↦ ?_
  dsimp only
  generalize k.val = n
  rcases n with _ | _ | n
  · exact (Serial.steady_pair steady_u64 steady_i64).map fun r ↦ ScheduleKind.stepped r.1 r.2
  · exact steady_i64.map ScheduleKind.linear
  · exact Serial.steady_none

theorem steady_rejectReason : Steady rejectReason.get := by
  refine steady_tag.bind fun k ↦ ?_
  dsimp only
  generalize k.val = n
  rcases n with _ | _ | _ | _ | _ | _ | _ | _ | _ | _ | n
  · exact Serial.steady_some _
  · exact steady_i64.map RejectReason.priceMoved
  · exact Serial.steady_some _
  · exact Serial.steady_some _
  · exact Serial.steady_some _
  · exact Serial.steady_some _
  · exact Serial.steady_some _
  · exact steady_i64.map RejectReason.limitAboveClock
  · exact Serial.steady_some _
  · exact Serial.steady_some _
  · exact Serial.steady_none

theorem steady_outcome : Steady outcome.get := by
  refine steady_tag.bind fun k ↦ ?_
  dsimp only
  generalize k.val = n
  rcases n with _ | _ | _ | _ | _ | _ | n
  · exact steady_u64.map Outcome.queued
  · exact steady_u64.map Outcome.resting
  · exact (Serial.steady_pair steady_u64 steady_i64).map fun r ↦ Outcome.filled r.1 r.2
  · exact steady_rejectReason.map Outcome.rejected
  · exact Serial.steady_some _
  · exact (Serial.steady_pair steady_u64 steady_i64).map fun r ↦
      Outcome.filledThenCancelled r.1 r.2
  · exact Serial.steady_none

theorem steady_auctionConfig : Steady auctionConfig.get :=
  Serial.steady_via
    (Serial.steady_pair steady_uuid (Serial.steady_pair steady_u64
      (Serial.steady_pair
        (Serial.steady_pair steady_i64 (Serial.steady_pair steady_i64 steady_scheduleKind))
        (Serial.steady_pair steady_u64 steady_u64)))) _ _ _

theorem steady_collateral : Steady collateral.get :=
  Serial.steady_via (Serial.steady_pair steady_i64 steady_i64) _ _ _

/-- The fields that a fill and a resting bid have in common. -/
theorem steady_terms : Steady (u64.pair (uuid.pair (uuid.pair (u64.pair i64)))).get :=
  Serial.steady_pair steady_u64 (Serial.steady_pair steady_uuid
    (Serial.steady_pair steady_uuid (Serial.steady_pair steady_u64 steady_i64)))

theorem steady_fill : Steady fill.get :=
  Layout.steady_via
    (Layout.steady_pair (Layout.steady_nat 8) (Layout.steady_layout steady_terms)) _ _ _

theorem steady_restingBid : Steady restingBid.get :=
  Layout.steady_via (Layout.steady_layout steady_terms) _ _ _

theorem steady_priceLadder : Steady priceLadder.get :=
  Layout.steady_via
    (Layout.steady_pair
      (Layout.steady_ordMap 8 (Layout.steady_layout steady_i64)
        (Layout.steady_list 8 steady_restingBid))
      (Layout.steady_layout steady_u64)) _ _ _

theorem steady_pendingBid : Steady pendingBid.get :=
  Layout.steady_via
    (Layout.steady_pair
      (Layout.steady_layout (Serial.steady_pair steady_u64 (Serial.steady_pair steady_uuid
        (Serial.steady_pair steady_uuid (Serial.steady_pair steady_u64
          (Serial.steady_pair steady_i64 steady_i64))))))
      (Layout.steady_option (Layout.steady_layout steady_i64))) _ _ _

theorem steady_openWindow : Steady openWindow.get :=
  Layout.steady_via
    (Layout.steady_pair (Layout.steady_layout steady_u64)
      (Layout.steady_pair (Layout.steady_layout steady_i64)
        (Layout.steady_list 8 steady_pendingBid))) _ _ _

theorem steady_stateImage : Steady stateImage.get := by
  refine Layout.steady_via ?_ _ _ _
  refine Layout.steady_pair (Layout.steady_layout steady_auctionConfig) ?_
  refine Layout.steady_pair (Layout.steady_layout steady_status) ?_
  refine Layout.steady_pair (Layout.steady_layout steady_u64) ?_
  refine Layout.steady_pair (Layout.steady_option (Layout.steady_layout steady_i64)) ?_
  refine Layout.steady_pair (Layout.steady_list 8 steady_fill) ?_
  refine Layout.steady_pair (Layout.steady_nat 8) ?_
  refine Layout.steady_pair steady_priceLadder ?_
  refine Layout.steady_pair (Layout.steady_option steady_openWindow) ?_
  refine Layout.steady_pair (Layout.steady_ordMap 8 (Layout.steady_layout steady_uuid)
    (Layout.steady_layout steady_outcome)) ?_
  refine Layout.steady_pair (Layout.steady_ordMap 8 (Layout.steady_layout steady_uuid)
    (Layout.steady_layout steady_collateral)) ?_
  exact Layout.steady_pair (Layout.steady_option (Layout.steady_layout steady_u64))
    (Layout.steady_layout steady_u64)

theorem steady_snapshot : Steady snapshot.get :=
  Layout.steady_pair (Layout.steady_layout steady_u64) steady_stateImage

/-! ### As a codec -/

/-- Trailing bytes are not an error. -/
def snapshotCodec : SnapshotCodec where
  serialize seq image := snapshot.put (seq, image)
  deserialize bytes :=
    match snapshot.get bytes with
    | some r => .ok r.1
    | none => .error "io error: unexpected end of file"
  hash := crc32

/-- **The encoding reads back every state that fits.** -/
theorem snapshot_lawful : snapshotCodec.Lawful where
  round_trip seq image h := by
    have hget := snapshot.get_put (seq, image) (fits_snapshot seq h) []
    rw [List.append_nil] at hget
    show (match snapshot.get (snapshot.put (seq, image)) with | some r => _ | none => _) = _
    rw [hget]

/-- **The encoding refuses what breaks off.** -/
theorem snapshot_refusesTorn : snapshotCodec.RefusesTorn := by
  intro seq image front h hfront hne
  have hnone := snapshot.get_eq_none_of_cut steady_snapshot (fits_snapshot seq h) hfront hne
  refine ⟨"io error: unexpected end of file", ?_⟩
  show (match snapshot.get front with | some r => _ | none => _) = _
  rw [hnone]

end Bincode

end DutchAuction
