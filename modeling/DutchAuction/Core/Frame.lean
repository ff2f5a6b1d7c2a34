import DutchAuction.Core.Matching

/-!
# What each operation changes

The two maps, outcomes and collateral, are what most operations write to; the rest of the state
moves in a few places only. `AuctionState.bare` forgets the two maps, and one lemma per operation
says what it does to everything else. An operation that leaves the bare state alone needs no further
frame lemma: equal bare states have equal fields.

The settlement loop is summarised by the list of fills it appends (`fillsOf`), and the flush of a
window by the three things it can do (`flushWindow_cases`).
-/

namespace DutchAuction

/-- The fills one settlement loop appends, numbered from `id`. -/
def fillsOf (price : Price) : FillId → List (PendingBid × ℕ) → List Fill
  | _, [] => []
  | id, (b, alloc) :: rest =>
    if alloc = 0 then fillsOf price id rest
    else
      ⟨id, b.seq, b.participant, b.key, U64.saturate alloc, price⟩ :: fillsOf price (id + 1) rest

/-- A resting bid as it enters a window: it competes at its limit and has reserved at it. -/
def RestingBid.toPending (b : RestingBid) : PendingBid :=
  ⟨b.seq, b.participant, b.key, b.qty, b.limit, b.limit, some b.limit⟩

/-- The fill at another price. -/
def Fill.at (price : Price) (f : Fill) : Fill := { f with price := price }

theorem isZero_saturate {n : ℕ} : Qty.isZero (U64.saturate n) = true ↔ n = 0 := by
  rw [Qty.isZero_eq_true, U64.val_saturate]
  omega

namespace AuctionState

/-- The state with outcomes and collateral forgotten. -/
def bare (s : AuctionState) : AuctionState :=
  { s with outcomes := fun _ ↦ none, collateral := fun _ ↦ none }

variable {s : AuctionState}

/-! ## Refusals -/

@[simp] theorem bare_reject (key : IdempotencyKey) (reason : RejectReason) :
    (s.reject key reason).1.bare = s.bare := rfl

@[simp] theorem bare_turnAwayPending (reason : RejectReason) (b : PendingBid) :
    (s.turnAwayPending reason b).1.bare = s.bare := rfl

@[simp] theorem bare_turnAwayResting (reason : RejectReason) (b : RestingBid) :
    (s.turnAwayResting reason b).1.bare = s.bare := rfl

theorem bare_turnAwayPending_loop (reason : RejectReason) (bids : List PendingBid) :
    (Emit.forEach (turnAwayPending reason) bids s).1.bare = s.bare :=
  Emit.forEach_frame bare (fun _ _ ↦ rfl) bids s

theorem bare_drainLadder (reason : RejectReason) :
    (s.drainLadder reason).1.bare = { s.bare with resting := PriceLadder.new } := by
  rw [drainLadder, Emit.forEach_frame bare (fun _ _ ↦ rfl)]
  rfl

theorem snd_drainLadder (reason : RejectReason) :
    (s.drainLadder reason).2 = s.resting.drainAll.1.map fun b ↦ .rejected b.key reason := by
  rw [drainLadder, Emit.forEach_snd_eq_flatMap (e := fun b ↦ [.rejected b.key reason])
    (fun _ _ ↦ rfl)]
  exact List.flatMap_pure_eq_map _ _

/-! ## Reservations -/

/-- **What a reservation does**: refuse and at most create the default entry, or commit a cost that
the participant can cover. -/
theorem reserve_cases (s : AuctionState) (participant : ParticipantId) (price : Price) (qty : Qty) :
    ((s.reserve participant price qty).2 = false ∧
      ((s.reserve participant price qty).1 = s ∨
        (s.reserve participant price qty).1 = { s with
          collateral := Function.update s.collateral participant
            (some (s.collateralOf participant)) })) ∨
    ∃ cost, Price.checkedMulQty price qty = some cost ∧
      cost ≤ (s.collateralOf participant).available ∧
      s.reserve participant price qty = ({ s with
        collateral := Function.update s.collateral participant
          (some { s.collateralOf participant with
            committed := (s.collateralOf participant).committed.saturatingAdd cost }) }, true) := by
  cases hcost : Price.checkedMulQty price qty with
  | none =>
    rw [reserve, hcost]
    exact Or.inl ⟨rfl, Or.inl rfl⟩
  | some cost =>
    simp only [reserve, hcost]
    by_cases hgt : cost > (s.collateralOf participant).available
    · rw [if_pos hgt]
      exact Or.inl ⟨rfl, Or.inr rfl⟩
    · rw [if_neg hgt]
      exact Or.inr ⟨cost, rfl, not_lt.mp hgt, rfl⟩

theorem reserve_frame (s : AuctionState) (participant : ParticipantId) (price : Price) (qty : Qty) :
    ∃ c, (s.reserve participant price qty).1 = { s with collateral := c } := by
  rcases s.reserve_cases participant price qty with ⟨-, h | h⟩ | ⟨cost, -, -, h⟩
  · exact ⟨_, h⟩
  · exact ⟨_, h⟩
  · exact ⟨_, congrArg Prod.fst h⟩

/-! ## Clearing

`bare` is a state without its two maps. Clearing and cancelling are described on it by one equation
each, so that the invariants that do not read the maps need not look into the loops. -/

@[simp] theorem bare_repriceFill (price : Price) (f : Fill) :
    (s.repriceFill price f).1.bare = { s.bare with fills := s.fills ++ [f.at price] } := by
  unfold repriceFill
  simp only
  split_ifs with h
  · have hf : f.at price = f := by rw [← h]; rfl
    rw [hf]
    rfl
  · rfl

theorem bare_repriceFill_loop (price : Price) (fills : List Fill) :
    (Emit.forEach (repriceFill price) fills s).1.bare =
      { s.bare with fills := s.fills ++ fills.map (Fill.at price) } := by
  induction fills generalizing s with
  | nil =>
    rw [List.map_nil, List.append_nil]
    rfl
  | cons f fills ih =>
    have h := bare_repriceFill (s := s) price f
    have hfills : (s.repriceFill price f).1.fills = s.fills ++ [f.at price] :=
      congrArg AuctionState.fills h
    rw [Emit.forEach_cons_fst, ih, h, hfills, List.append_assoc, List.map_cons]
    rfl

/-- **Clearing** ends the auction at one price, reprices every fill to it and empties the ladder. -/
theorem bare_clear (s : AuctionState) (price : Price) :
    (s.clear price).1.bare =
      { s.bare with
        status := .cleared
        clearingPrice := some price
        fills := s.fills.map (Fill.at price)
        resting := PriceLadder.new } := by
  unfold clear
  rw [Emit.andThen_fst, Emit.andThen_fst]
  show (drainLadder _ _).1.bare = _
  rw [bare_drainLadder, bare_repriceFill_loop]
  rfl

theorem snd_clear (s : AuctionState) (price : Price) :
    (s.clear price).2 =
      (s.fills.flatMap fun f ↦ if f.price = price then [] else [.repriced f.id f.price price]) ++
        (s.resting.drainAll.1.map (fun b ↦ .rejected b.key .unfilled) ++
          [.cleared price (s.clear price).1.totalFilled (s.clear price).1.supplyRemaining]) := by
  have hloop : ∀ t : AuctionState, (Emit.forEach (repriceFill price) s.fills t).2 =
      s.fills.flatMap fun f ↦ if f.price = price then [] else [.repriced f.id f.price price] :=
    Emit.forEach_snd_eq_flatMap (fun f t ↦ by unfold repriceFill; simp only; split_ifs <;> rfl) _
  have hresting : (Emit.forEach (repriceFill price) s.fills
      { s with status := .cleared, clearingPrice := some price, fills := [] }).1.resting =
        s.resting := by
    have h := congrArg AuctionState.resting (bare_repriceFill_loop price s.fills (s :=
      { s with status := .cleared, clearingPrice := some price, fills := [] }))
    exact h
  unfold clear
  rw [Emit.andThen_snd, Emit.andThen_snd, hloop, snd_drainLadder, hresting]
  rfl

theorem mem_clear {price : Price} {e : Event} (h : e ∈ (s.clear price).2) :
    (∃ f ∈ s.fills, f.price ≠ price ∧ e = .repriced f.id f.price price) ∨
      (∃ key, e = .rejected key .unfilled) ∨ ∃ filled unsold, e = .cleared price filled unsold := by
  rw [snd_clear, List.mem_append, List.mem_append] at h
  rcases h with h | h | h
  · obtain ⟨f, hf, hmem⟩ := List.mem_flatMap.mp h
    split_ifs at hmem with heq
    · exact absurd hmem List.not_mem_nil
    · exact Or.inl ⟨f, hf, heq, List.mem_singleton.mp hmem⟩
  · obtain ⟨b, -, hb⟩ := List.mem_map.mp h
    exact Or.inr (Or.inl ⟨b.key, hb.symm⟩)
  · exact Or.inr (Or.inr ⟨_, _, List.mem_singleton.mp h⟩)

theorem bare_onCancel (hopen : s.status.isTerminal = false) :
    s.onCancel.1.bare =
      { s.bare with status := .cancelled, window := none, resting := PriceLadder.new } := by
  unfold onCancel
  rw [if_neg (by rw [hopen]; exact Bool.false_ne_true), Emit.andThen_fst, Emit.andThen_fst,
    bare_drainLadder, bare_turnAwayPending_loop]
  rfl

/-! ## The window -/

/-- The open window, or a fresh one at the clock. -/
def currentWindow (s : AuctionState) : OpenWindow :=
  s.window.getD ⟨(s.config.windowBounds s.now).1, (s.config.windowBounds s.now).2, []⟩

theorem triggerResting_eq (s : AuctionState) :
    s.triggerResting s.now =
      { s with
        resting := (s.resting.drainTriggered (s.config.priceAt s.now)).2
        window :=
          if (s.resting.drainTriggered (s.config.priceAt s.now)).1 = [] then s.window
          else some { s.currentWindow with
            bids := s.currentWindow.bids ++
              (s.resting.drainTriggered (s.config.priceAt s.now)).1.map
                RestingBid.toPending } } := by
  unfold triggerResting currentWindow
  dsimp only
  generalize (s.resting.drainTriggered (s.config.priceAt s.now)).2 = resting
  generalize (s.resting.drainTriggered (s.config.priceAt s.now)).1 = bids
  induction bids using List.reverseRecOn with
  | nil => rfl
  | append_singleton bids b ih =>
    rw [List.foldl_append, ih, List.foldl_cons, List.foldl_nil]
    cases bids with
    | nil => rfl
    | cons c bids =>
      rw [if_neg (List.cons_ne_nil _ _), if_neg (by simp), List.map_append, ← List.append_assoc]
      rfl

/-! ## Settlement

One pass fills a bid that received something and refuses one that received nothing. What a bid has
not received goes back to the ladder only while supply is left, and then there is no such bid: so
the loop appends one fill for each bid that received something, and a flush is the loop and then
possibly a clearing. -/

theorem remainder_done {exhausted : Bool} {b : PendingBid} {alloc : ℕ} (hle : alloc ≤ b.qty.val)
    (hfull : exhausted = false → alloc = b.qty.val) :
    (Qty.isZero (b.qty.saturatingSub (U64.saturate alloc)) || exhausted) = true := by
  cases exhausted with
  | true => exact Bool.or_true _
  | false =>
    rw [Bool.or_false, Qty.isZero_eq_true, U64.val_saturatingSub,
      U64.val_saturate_of_lt (hle.trans_lt b.qty.val_lt), hfull rfl, Nat.sub_self]

theorem requeueRemainder_eq_self {exhausted : Bool} {b : PendingBid} {alloc : ℕ}
    (hle : alloc ≤ b.qty.val) (hfull : exhausted = false → alloc = b.qty.val) :
    s.requeueRemainder exhausted b (U64.saturate alloc) = s := by
  unfold requeueRemainder
  dsimp only
  rw [remainder_done hle hfull]
  cases b.restingLimit with
  | none => rfl
  | some limit => rfl

theorem settle_zero (s : AuctionState) (price : Price) (exhausted : Bool) (b : PendingBid) :
    s.settle price exhausted (b, 0) =
      s.turnAway .supplyExhausted b.participant b.key b.reservePrice b.qty := by
  unfold settle
  dsimp only
  rw [if_pos (isZero_saturate.mpr rfl)]
  rfl

theorem bare_settle (s : AuctionState) (price : Price) {exhausted : Bool} {b : PendingBid}
    {alloc : ℕ}
    (h : 0 < alloc → alloc ≤ b.qty.val ∧ (exhausted = false → alloc = b.qty.val)) :
    (s.settle price exhausted (b, alloc)).1.bare =
      { s.bare with
        fills := s.fills ++ fillsOf price s.nextFillId [(b, alloc)]
        nextFillId := s.nextFillId + (fillsOf price s.nextFillId [(b, alloc)]).length } := by
  unfold settle fillsOf
  dsimp only
  by_cases hz : alloc = 0
  · rw [if_pos (isZero_saturate.mpr hz), if_pos hz, fillsOf, List.append_nil]
    rfl
  · obtain ⟨hle, hfull⟩ := h (Nat.pos_of_ne_zero hz)
    rw [if_neg fun hs ↦ hz (isZero_saturate.mp hs), if_neg hz, requeueRemainder_eq_self hle hfull]
    rfl

theorem settle_maps (s : AuctionState) (price : Price) {exhausted : Bool} {b : PendingBid}
    {alloc : ℕ}
    (hpos : 0 < alloc) (hle : alloc ≤ b.qty.val) (hfull : exhausted = false → alloc = b.qty.val) :
    (s.settle price exhausted (b, alloc)).1.outcomes =
        Function.update s.outcomes b.key
          (some (mergeOutcome (s.outcomes b.key) (.filled (U64.saturate alloc) price))) ∧
      (s.settle price exhausted (b, alloc)).1.collateral =
        commit (release s.collateral b.participant b.reservePrice b.qty) b.participant price
          (U64.saturate alloc) := by
  unfold settle
  dsimp only
  rw [if_neg fun hz ↦ hpos.ne' (isZero_saturate.mp hz), requeueRemainder_eq_self hle hfull]
  exact ⟨rfl, rfl⟩

theorem snd_settle {price : Price} {exhausted : Bool} {ba : PendingBid × ℕ} {e : Event}
    (h : e ∈ (s.settle price exhausted ba).2) :
    e = .rejected ba.1.key .supplyExhausted ∨
      ∃ f, e = .filled f ∧ f.price = price ∧ f.key = ba.1.key ∧
        f.participant = ba.1.participant := by
  unfold settle at h
  simp only at h
  split_ifs at h
  · exact Or.inl (List.mem_singleton.mp h)
  · exact Or.inr ⟨_, List.mem_singleton.mp h, rfl, rfl, rfl⟩

theorem fillsOf_cons (price : Price) (id : FillId) (ba : PendingBid × ℕ)
    (l : List (PendingBid × ℕ)) :
    fillsOf price id (ba :: l) =
      fillsOf price id [ba] ++ fillsOf price (id + (fillsOf price id [ba]).length) l := by
  obtain ⟨b, alloc⟩ := ba
  simp only [fillsOf]
  split_ifs
  · rfl
  · rfl

/-- **The settlement loop** appends one fill per bid that received something. -/
theorem bare_settle_loop {price : Price} {exhausted : Bool} {l : List (PendingBid × ℕ)}
    (h : ∀ ba ∈ l, 0 < ba.2 → ba.2 ≤ ba.1.qty.val ∧ (exhausted = false → ba.2 = ba.1.qty.val)) :
    (Emit.forEach (settle price exhausted) l s).1.bare =
      { s.bare with
        fills := s.fills ++ fillsOf price s.nextFillId l
        nextFillId := s.nextFillId + (fillsOf price s.nextFillId l).length } := by
  induction l generalizing s with
  | nil =>
    rw [fillsOf, List.append_nil]
    rfl
  | cons ba l ih =>
    have hba := s.bare_settle price (h ba List.mem_cons_self)
    have hfills : (s.settle price exhausted ba).1.fills =
        s.fills ++ fillsOf price s.nextFillId [ba] := congrArg AuctionState.fills hba
    have hid : (s.settle price exhausted ba).1.nextFillId =
        s.nextFillId + (fillsOf price s.nextFillId [ba]).length :=
      congrArg AuctionState.nextFillId hba
    rw [Emit.forEach_cons_fst, ih fun c hc ↦ h c (List.mem_cons_of_mem _ hc)]
    rw [fillsOf_cons price s.nextFillId ba l, List.length_append, hfills, hid, hba,
      List.append_assoc, Nat.add_assoc]

/-- The supply a window leaves. -/
def supplyAfter (s : AuctionState) (w : OpenWindow) : Qty :=
  (matchLevels (priceLevels (byPriority w.bids)) s.supplyRemaining false).2.1

/-- Whether the window exhausts the supply. -/
def Exhausts (s : AuctionState) (w : OpenWindow) : Prop :=
  (matchLevels (priceLevels (byPriority w.bids)) s.supplyRemaining false).2.2 = true

instance (s : AuctionState) (w : OpenWindow) : Decidable (s.Exhausts w) :=
  inferInstanceAs (Decidable (_ = true))

/-- The fills a window produces. -/
def windowFills (s : AuctionState) (w : OpenWindow) : List Fill :=
  fillsOf w.price s.nextFillId (allocations w.bids s.supplyRemaining)

/-- The settlement loop of window `w`, which has been taken out of the state. -/
def settling (w : OpenWindow) (s : AuctionState) : AuctionState × List Event :=
  Emit.forEach (settle w.price (decide (s.Exhausts w))) (allocations w.bids s.supplyRemaining)
    { s with window := none, supplyRemaining := s.supplyAfter w }

/-- The state once the settlement loop of window `w` is over. -/
def settled (s : AuctionState) (w : OpenWindow) : AuctionState := (s.settling w).1

theorem bare_settled (w : OpenWindow) :
    (s.settled w).bare =
      { s.bare with
        window := none
        supplyRemaining := s.supplyAfter w
        fills := s.fills ++ s.windowFills w
        nextFillId := s.nextFillId + (s.windowFills w).length } := by
  unfold settled settling
  rw [bare_settle_loop]
  · rfl
  · intro ba hba hpos
    refine ⟨alloc_le_qty hba, fun hex ↦ alloc_eq_qty_of_not_exhausted hba hpos ?_⟩
    exact Bool.eq_false_iff.mpr (of_decide_eq_false hex)

theorem snd_settling {w : OpenWindow} {e : Event} (h : e ∈ (s.settling w).2) :
    (∃ key, e = .rejected key .supplyExhausted) ∨ ∃ f, e = .filled f ∧ f.price = w.price := by
  refine Emit.forall_mem_forEach_snd (Q := fun e ↦ (∃ key, e = .rejected key .supplyExhausted) ∨
    ∃ f, e = .filled f ∧ f.price = w.price) (fun ba s e he ↦ ?_) _ _ e h
  rcases snd_settle he with rfl | ⟨f, rfl, hprice, -⟩
  · exact Or.inl ⟨_, rfl⟩
  · exact Or.inr ⟨f, rfl, hprice⟩

theorem filled_mem_settling {w : OpenWindow} {f : Fill} (h : .filled f ∈ (s.settling w).2) :
    ∃ b ∈ w.bids, f.key = b.key ∧ f.participant = b.participant ∧ f.price = w.price := by
  obtain ⟨ba, hba, s', he⟩ := Emit.exists_of_mem_forEach_snd h
  rcases snd_settle he with heq | ⟨g, heq, hprice, hkey, hparticipant⟩
  · cases heq
  · cases heq
    exact ⟨ba.1, mem_of_mem_allocations hba, hkey, hparticipant, hprice⟩

/-- **What a flush does**: nothing without a window, refuse its bids unless the auction is live, and
otherwise settle it and clear if that exhausts the supply. -/
theorem flushWindow_cases (s : AuctionState) :
    (s.window = none ∧ s.flushWindow = (s, [])) ∨
    (∃ w, s.window = some w ∧ s.status ≠ .live ∧
      s.flushWindow = Emit.forEach (turnAwayPending .notLive) w.bids { s with window := none }) ∨
    (∃ w, s.window = some w ∧ s.status = .live ∧
      s.flushWindow =
        Emit.andThen (settling w) (if s.Exhausts w then clear w.price else Emit.skip) s) := by
  unfold flushWindow
  cases hw : s.window with
  | none => exact Or.inl ⟨rfl, rfl⟩
  | some w =>
    by_cases hlive : s.status = .live
    · refine Or.inr (Or.inr ⟨w, rfl, hlive, ?_⟩)
      have hdec : decide (s.Exhausts w) =
          (matchLevels (priceLevels (byPriority w.bids)) s.supplyRemaining false).2.2 :=
        Bool.decide_eq_true
      have hloop : s.settling w = Emit.forEach
          (settle w.price
            (matchLevels (priceLevels (byPriority w.bids)) s.supplyRemaining false).2.2)
          (allocations w.bids s.supplyRemaining)
          { s with window := none, supplyRemaining := s.supplyAfter w } := by
        rw [settling, hdec]
      dsimp only
      rw [if_pos (Status.acceptsBids_iff.mpr hlive), Emit.andThen, hloop]
      rfl
    · refine Or.inr (Or.inl ⟨w, rfl, hlive, ?_⟩)
      simp [Status.acceptsBids, hlive]

theorem mem_flushWindow {e : Event} (h : e ∈ s.flushWindow.2) :
    (∃ key reason, e = .rejected key reason) ∨ (∃ f, e = .filled f) ∨
      (∃ id fromPrice toPrice, e = .repriced id fromPrice toPrice) ∨
      ∃ price filled unsold, e = .cleared price filled unsold := by
  rcases s.flushWindow_cases with ⟨-, hf⟩ | ⟨w, -, -, hf⟩ | ⟨w, -, -, hf⟩
  · rw [hf] at h
    exact absurd h List.not_mem_nil
  · rw [hf] at h
    obtain ⟨b, -, s', he⟩ := Emit.exists_of_mem_forEach_snd h
    exact Or.inl ⟨b.key, .notLive, List.mem_singleton.mp he⟩
  · rw [hf, Emit.andThen_snd] at h
    rcases List.mem_append.mp h with h | h
    · rcases snd_settling h with ⟨key, heq⟩ | ⟨f, heq, -⟩
      · exact Or.inl ⟨key, .supplyExhausted, heq⟩
      · exact Or.inr (Or.inl ⟨f, heq⟩)
    · split_ifs at h
      · rcases mem_clear h with ⟨f, -, -, heq⟩ | ⟨key, heq⟩ | ⟨filled, unsold, heq⟩
        · exact Or.inr (Or.inr (Or.inl ⟨_, _, _, heq⟩))
        · exact Or.inl ⟨key, .unfilled, heq⟩
        · exact Or.inr (Or.inr (Or.inr ⟨_, _, _, heq⟩))
      · exact absurd h List.not_mem_nil

theorem bare_flushWindow_live {w : OpenWindow} (hw : s.window = some w) (hlive : s.status = .live) :
    s.flushWindow.1.bare = if s.Exhausts w then ((s.settled w).clear w.price).1.bare
      else (s.settled w).bare := by
  rcases s.flushWindow_cases with ⟨h, -⟩ | ⟨w', -, h, -⟩ | ⟨w', h, -, hf⟩
  · rw [hw] at h
    cases h
  · exact absurd hlive h
  · rw [hw] at h
    cases h
    rw [hf, Emit.andThen_fst]
    split_ifs
    · rfl
    · rfl

theorem status_clear (price : Price) : (s.clear price).1.status = .cleared :=
  congrArg AuctionState.status (s.bare_clear price)

theorem resting_flushWindow (hopen : s.flushWindow.1.status.isTerminal = false) :
    s.flushWindow.1.resting = s.resting := by
  rcases s.flushWindow_cases with ⟨-, hf⟩ | ⟨w, -, -, hf⟩ | ⟨w, hw, hlive, -⟩
  · rw [hf]
  · have hbare : s.flushWindow.1.bare = { s.bare with window := none } := by
      rw [hf]
      exact bare_turnAwayPending_loop .notLive w.bids
    have hresting := congrArg AuctionState.resting hbare
    exact hresting
  · have hbare := bare_flushWindow_live hw hlive
    split_ifs at hbare
    · have hcleared : s.flushWindow.1.status = .cleared :=
        (congrArg AuctionState.status hbare).trans (status_clear w.price)
      rw [hcleared] at hopen
      cases hopen
    · rw [bare_settled] at hbare
      have hresting := congrArg AuctionState.resting hbare
      exact hresting

theorem settleAtFloor_status (s : AuctionState) : s.settleAtFloor.1.status ≠ .live := by
  unfold settleAtFloor
  rw [Emit.andThen_fst]
  by_cases haccepts : s.flushWindow.1.status.acceptsBids = true
  · rw [if_pos haccepts, status_clear]
    exact Status.noConfusion
  · rw [if_neg haccepts]
    exact fun hlive ↦ haccepts (Status.acceptsBids_iff.mpr hlive)

end AuctionState

end DutchAuction
