import DutchAuction.Core.Footprint

/-!
# A state as the program holds it

The state machine reads and writes its two maps at a key only, so there they are functions. The
program holds them as ordered maps, and that is what it can write to a file. An image is a state
with ordered maps; it determines its state (`state`), and a state has one image at most
(`state_injective`).

Every state of a run has an image, for only the participants and the keys that its commands name are
in its maps. And it is of limited size: with fewer than `2 ^ 64` commands, no list in it is longer
than a 64-bit length can say (`run_image`).
-/

namespace DutchAuction

/-- Identifiers are ordered as their bytes are, the most significant first. -/
instance : LinearOrder Uuid := LinearOrder.lift' BitVec.toNat fun _ _ ↦ BitVec.eq_of_toNat_eq

/-- Everything one auction knows about itself, with its maps in key order. -/
structure StateImage where
  config : AuctionConfig
  status : Status
  supplyRemaining : Qty
  clearingPrice : Option Price
  fills : List Fill
  nextFillId : FillId
  resting : PriceLadder
  window : Option OpenWindow
  outcomes : OrdMap IdempotencyKey Outcome
  collateral : OrdMap ParticipantId Collateral
  lastSeq : Option Seq
  now : Nanos

namespace StateImage

/-- The state this is the image of. -/
def state (i : StateImage) : AuctionState where
  config := i.config
  status := i.status
  supplyRemaining := i.supplyRemaining
  clearingPrice := i.clearingPrice
  fills := i.fills
  nextFillId := i.nextFillId
  resting := i.resting
  window := i.window
  outcomes := i.outcomes.get?
  collateral := i.collateral.get?
  lastSeq := i.lastSeq
  now := i.now

/-- **A state has one image at most.** -/
theorem state_injective : Function.Injective state := by
  intro i j h
  obtain ⟨config, status, supply, price, fills, id, resting, window, outcomes, collateral, last,
    now⟩ := i
  obtain ⟨config', status', supply', price', fills', id', resting', window', outcomes',
    collateral', last', now'⟩ := j
  injection h with hconfig hstatus hsupply hprice hfills hid hresting hwindow houtcomes hcollateral
    hlast hnow
  have hrecords : outcomes = outcomes' := OrdMap.ext_get? (congrFun houtcomes)
  have haccounts : collateral = collateral' := OrdMap.ext_get? (congrFun hcollateral)
  dsimp only at *
  subst_vars
  rfl

/-- No list is longer than a 64-bit length can say, and every fill has a 64-bit number. -/
structure Fits (i : StateImage) : Prop where
  fills : i.fills.length < 2 ^ 64
  ids : ∀ f ∈ i.fills, f.id < 2 ^ 64
  nextFillId : i.nextFillId < 2 ^ 64
  levels : i.resting.levels.entries.length < 2 ^ 64
  level : ∀ e ∈ i.resting.levels.entries, e.2.length < 2 ^ 64
  window : ∀ w ∈ i.window, w.bids.length < 2 ^ 64
  outcomes : i.outcomes.entries.length < 2 ^ 64
  collateral : i.collateral.entries.length < 2 ^ 64

end StateImage

namespace AuctionState

/-- The image of a state that knows of these participants and keys only. -/
def image (participants : List ParticipantId) (keys : List IdempotencyKey) (s : AuctionState) :
    StateImage where
  config := s.config
  status := s.status
  supplyRemaining := s.supplyRemaining
  clearingPrice := s.clearingPrice
  fills := s.fills
  nextFillId := s.nextFillId
  resting := s.resting
  window := s.window
  outcomes := OrdMap.ofKeys s.outcomes keys
  collateral := OrdMap.ofKeys s.collateral participants
  lastSeq := s.lastSeq
  now := s.now

theorem Within.state_image {participants : List ParticipantId} {keys : List IdempotencyKey}
    {s : AuctionState} (h : s.Within {p | p ∈ participants} {k | k ∈ keys}) :
    (s.image participants keys).state = s := by
  have houtcomes : (OrdMap.ofKeys s.outcomes keys).get? = s.outcomes := by
    funext k
    rw [OrdMap.get?_ofKeys]
    split_ifs with hk
    · rfl
    · by_contra hne
      exact hk (h.records k (Ne.symm hne))
  have hcollateral : (OrdMap.ofKeys s.collateral participants).get? = s.collateral := by
    funext p
    rw [OrdMap.get?_ofKeys]
    split_ifs with hp
    · rfl
    · by_contra hne
      exact hp (h.accounts p (Ne.symm hne))
  show { s with
    outcomes := (OrdMap.ofKeys s.outcomes keys).get?
    collateral := (OrdMap.ofKeys s.collateral participants).get? } = s
  rw [houtcomes, hcollateral]

end AuctionState

/-! ## Runs -/

variable {config : AuctionConfig} {tr : List Transition} {s : AuctionState}

theorem PriceLadder.Filed.length_levels_le {l : PriceLadder} (h : l.Filed) :
    l.levels.entries.length ≤ l.bids.length := by
  obtain ⟨⟨entries, hsorted⟩, total⟩ := l
  show entries.length ≤ (entries.map Prod.snd).flatten.length
  have hne : ∀ e ∈ entries, e.2 ≠ [] := fun e he ↦ (h e he).1
  clear h hsorted
  induction entries with
  | nil => exact le_rfl
  | cons e entries ih =>
    have hpos := List.length_pos_of_ne_nil (hne e List.mem_cons_self)
    have hrest := ih fun e' he' ↦ hne e' (List.mem_cons_of_mem _ he')
    rw [List.map_cons, List.flatten_cons, List.length_append, List.length_cons]
    omega

theorem PriceLadder.length_level_le {l : PriceLadder} {e : Price × List RestingBid}
    (he : e ∈ l.levels.entries) : e.2.length ≤ l.bids.length := by
  obtain ⟨l₁, l₂, heq⟩ := List.append_of_mem he
  rw [bids, OrdMap.values, heq]
  simp only [List.map_append, List.map_cons, List.flatten_append, List.flatten_cons,
    List.length_append]
  omega

/-- **Every state of a run has an image**, and one that can be written to a file. -/
theorem run_image (hrun : Run config tr s) (hlen : tr.length < 2 ^ 64) :
    ∃ i : StateImage, i.state = s ∧ i.Fits := by
  have hwithin := run_within hrun
  refine ⟨s.image (funded (tr.map Runs.Transition.input)) (bidKeys (tr.map Runs.Transition.input)),
    hwithin.state_image, ?_⟩
  have hfunded : (funded (tr.map Runs.Transition.input)).length ≤ tr.length :=
    (List.length_filterMap_le _ _).trans (List.length_map _).le
  have hkeys : (bidKeys (tr.map Runs.Transition.input)).length ≤ tr.length :=
    (List.length_filterMap_le _ _).trans (List.length_map _).le
  have hlive := (length_liveBids_add_fills_le hrun).trans
    ((List.dedup_sublist _).length_le.trans hkeys)
  rw [AuctionState.liveBids, List.length_append, List.length_map, List.length_map] at hlive
  have htally : s.Tallied :=
    hrun.invariant (AuctionState.tallied_new config) fun _ _ _ _ h h' ↦ h.step h'
  have hfills : s.fills.length < 2 ^ 64 := by omega
  have hnext : s.nextFillId < 2 ^ 64 := htally.next ▸ hfills
  refine ⟨hfills, fun f hf ↦ ?_, hnext, ?_, fun e he ↦ ?_, fun w hw ↦ ?_, ?_, ?_⟩
  · have hid : f.id ∈ s.fills.map Fill.id := List.mem_map_of_mem hf
    rw [htally.numbered, List.mem_range] at hid
    exact hid.trans hfills
  · have hlevels := (run_priced hrun).filed.length_levels_le
    show s.resting.levels.entries.length < _
    omega
  · have hlevel : e.2.length ≤ s.resting.bids.length := PriceLadder.length_level_le he
    omega
  · have hbids : s.window = some w := hw
    rw [hbids] at hlive
    have hwindow : ((some w).map OpenWindow.bids).getD [] = w.bids := rfl
    rw [hwindow] at hlive
    omega
  · exact (OrdMap.length_ofKeys_le _ _).trans_lt (hkeys.trans_lt hlen)
  · exact (OrdMap.length_ofKeys_le _ _).trans_lt (hfunded.trans_lt hlen)

end DutchAuction
