import DutchAuction.Core.Keys
import DutchAuction.Core.Renumber

/-!
# Two runs in lockstep

`Agree` compares two states but for the numbers of their bids, and but for what is on record under
some keys. `Tracks` adds what else the handlers read. Every operation keeps it, pass by pass of
every loop, when both sides are given the same command at the same time (`Tracks.advance`): a
command is decided by nothing that `Tracks` forgets, except that a bid looks its own key up.

All that is asked of the renumbering is that it keeps the order of the numbers that occur, so those
are tracked too, in a set `S`. A run tracks itself, with no number past its last (`run_numbered`).
-/

namespace DutchAuction

/-- The idempotency key a command carries. -/
def Command.key? : Command → Option IdempotencyKey
  | .submitBid _ key _ _ => some key
  | .cancelResting _ key => some key
  | _ => none

namespace AuctionState

/-- Two states that agree but for the numbers of their bids, and for what is on record under the
keys of `K`. -/
structure Agree (ρ : Seq → Seq) (K : Set IdempotencyKey) (s t : AuctionState) : Prop where
  status : t.status = s.status
  supplyRemaining : t.supplyRemaining = s.supplyRemaining
  clearingPrice : t.clearingPrice = s.clearingPrice
  fills : t.fills = s.fills.map (Fill.renumber ρ)
  resting : t.resting = s.resting.renumber ρ
  window : t.window = s.window.map (OpenWindow.renumber ρ)
  collateral : ∀ p, t.collateralOf p = s.collateralOf p
  outcomes : ∀ k ∉ K, t.outcome k = s.outcome k

/-- Two states that agree, with everything else that a handler reads, and with all numbers in
`S`. -/
structure Tracks (ρ : Seq → Seq) (S : Set Seq) (K : Set IdempotencyKey) (s t : AuctionState) :
    Prop where
  config : t.config = s.config
  status : t.status = s.status
  supplyRemaining : t.supplyRemaining = s.supplyRemaining
  clearingPrice : t.clearingPrice = s.clearingPrice
  fills : t.fills = s.fills.map (Fill.renumber ρ)
  nextFillId : t.nextFillId = s.nextFillId
  resting : t.resting = s.resting.renumber ρ
  window : t.window = s.window.map (OpenWindow.renumber ρ)
  accounts : accounts t.collateral = accounts s.collateral
  outcomes : ∀ k ∉ K, t.outcomes k = s.outcomes k
  filledIn : ∀ f ∈ s.fills, f.seq ∈ S
  pendingIn : ∀ w, s.window = some w → ∀ b ∈ w.bids, b.seq ∈ S
  restingIn : ∀ b ∈ s.resting.bids, b.seq ∈ S

namespace Tracks

variable {ρ : Seq → Seq} {S : Set Seq} {K : Set IdempotencyKey} {s t : AuctionState}

theorem agree (h : Tracks ρ S K s t) : Agree ρ K s t where
  status := h.status
  supplyRemaining := h.supplyRemaining
  clearingPrice := h.clearingPrice
  fills := h.fills
  resting := h.resting
  window := h.window
  collateral := fun p ↦ congrFun h.accounts p
  outcomes := h.outcomes

/-! ## The small moves

Two states are tracked up to a renumbering of positions and up to the records of some keys. The
small moves read no number, and no record but that of the key they are about. -/

theorem setOutcome (h : Tracks ρ S K s t) (key : IdempotencyKey) (outcome : Outcome) :
    Tracks ρ S K (s.setOutcome key outcome) (t.setOutcome key outcome) :=
  { h with
    outcomes := fun k hk ↦ by
      unfold AuctionState.setOutcome
      dsimp only
      by_cases heq : k = key
      · rw [← heq, Function.update_self, Function.update_self, h.outcomes k hk]
      · rw [Function.update_of_ne heq, Function.update_of_ne heq, h.outcomes k hk] }

theorem of_accounts (h : Tracks ρ S K s t) {c c' : ParticipantId → Option Collateral}
    (hc : DutchAuction.accounts c' = DutchAuction.accounts c) :
    Tracks ρ S K { s with collateral := c } { t with collateral := c' } :=
  { h with accounts := hc }

theorem release (h : Tracks ρ S K s t) (p : ParticipantId) (price : Price) (qty : Qty) :
    Tracks ρ S K { s with collateral := DutchAuction.release s.collateral p price qty }
      { t with collateral := DutchAuction.release t.collateral p price qty } :=
  h.of_accounts (by rw [accounts_release, accounts_release, h.accounts])

theorem commit (h : Tracks ρ S K s t) (p : ParticipantId) (price : Price) (qty : Qty) :
    Tracks ρ S K { s with collateral := DutchAuction.commit s.collateral p price qty }
      { t with collateral := DutchAuction.commit t.collateral p price qty } :=
  h.of_accounts (by rw [accounts_commit, accounts_commit, h.accounts])

theorem turnAway (h : Tracks ρ S K s t) (reason : RejectReason) (p : ParticipantId)
    (key : IdempotencyKey) (price : Price) (qty : Qty) :
    Tracks ρ S K (s.turnAway reason p key price qty).1 (t.turnAway reason p key price qty).1 :=
  (h.release p price qty).setOutcome key (.rejected reason)

theorem drainLadder (h : Tracks ρ S K s t) (reason : RejectReason) :
    Tracks ρ S K (s.drainLadder reason).1 (t.drainLadder reason).1 := by
  unfold AuctionState.drainLadder
  rw [h.resting, PriceLadder.drainAll_renumber]
  refine Emit.forEach_lockstep _ (fun b _ s t h ↦ h.turnAway _ _ _ _ _) ?_
  exact { h with
    resting := rfl
    restingIn := fun b hb ↦ absurd hb List.not_mem_nil }

theorem reserve (h : Tracks ρ S K s t) (p : ParticipantId) (price : Price) (qty : Qty) :
    (t.reserve p price qty).2 = (s.reserve p price qty).2 ∧
      Tracks ρ S K (s.reserve p price qty).1 (t.reserve p price qty).1 := by
  have hc : t.collateralOf p = s.collateralOf p := congrFun h.accounts p
  unfold AuctionState.reserve
  cases Price.checkedMulQty price qty with
  | none => exact ⟨rfl, h⟩
  | some cost =>
    simp only [hc]
    split_ifs
    · exact ⟨rfl, h.of_accounts (by rw [accounts_update, accounts_update, h.accounts])⟩
    · exact ⟨rfl, h.of_accounts (by rw [accounts_update, accounts_update, h.accounts])⟩

/-! ## Clearing -/

theorem repriceFill (h : Tracks ρ S K s t) (price : Price) {f : Fill} (hf : f.seq ∈ S) :
    Tracks ρ S K (s.repriceFill price f).1 (t.repriceFill price (f.renumber ρ)).1 := by
  have houtcomes : ∀ k ∉ K,
      Function.update t.outcomes f.key ((t.outcomes f.key).map (Outcome.quoting price)) k =
        Function.update s.outcomes f.key ((s.outcomes f.key).map (Outcome.quoting price)) k := by
    intro k hk
    by_cases heq : k = f.key
    · rw [← heq, Function.update_self, Function.update_self, h.outcomes k hk]
    · rw [Function.update_of_ne heq, Function.update_of_ne heq, h.outcomes k hk]
  have hfills : ∀ g : Fill, t.fills ++ [g.renumber ρ] = (s.fills ++ [g]).map (Fill.renumber ρ) := by
    intro g
    rw [h.fills, List.map_append, List.map_singleton]
  have hin : ∀ g : Fill, g.seq = f.seq → ∀ g' ∈ s.fills ++ [g], g'.seq ∈ S := by
    intro g hg g' hg'
    rcases List.mem_append.mp hg' with hg' | hg'
    · exact h.filledIn g' hg'
    · rw [List.mem_singleton.mp hg', hg]
      exact hf
  unfold AuctionState.repriceFill
  dsimp only
  by_cases heq : f.price = price
  · rw [if_pos heq, if_pos (show (f.renumber ρ).price = price from heq)]
    exact { h with
      outcomes := houtcomes
      fills := hfills f
      filledIn := hin f rfl }
  · rw [if_neg heq, if_neg (show ¬(f.renumber ρ).price = price from heq)]
    exact { h.release f.participant (f.price.saturatingSub price) f.qty with
      outcomes := houtcomes
      fills := hfills { f with price := price }
      filledIn := hin { f with price := price } rfl }

theorem clear (h : Tracks ρ S K s t) (price : Price) :
    Tracks ρ S K (s.clear price).1 (t.clear price).1 := by
  unfold AuctionState.clear
  refine Tracks.drainLadder ?_ .unfilled
  rw [h.fills]
  refine Emit.forEach_lockstep _ (fun f hf _ _ hpass ↦ hpass.repriceFill price (h.filledIn f hf)) ?_
  exact { h with
    status := rfl
    clearingPrice := rfl
    fills := rfl
    filledIn := fun f hf ↦ absurd hf List.not_mem_nil }

/-! ## Windows -/

theorem pushPending (h : Tracks ρ S K s t) (index : U64) (price : Price) {b : PendingBid}
    (hb : b.seq ∈ S) :
    Tracks ρ S K (s.pushPending index price b) (t.pushPending index price (b.renumber ρ)) := by
  have hin : ∀ bids : List PendingBid, (∀ b ∈ bids, b.seq ∈ S) → ∀ c ∈ bids ++ [b], c.seq ∈ S := by
    intro bids hbids c hc
    rcases List.mem_append.mp hc with hc | hc
    · exact hbids c hc
    · rw [List.mem_singleton.mp hc]
      exact hb
  have hwindow := h.window
  unfold AuctionState.pushPending
  cases hw : s.window with
  | none =>
    rw [hw] at hwindow
    rw [hwindow]
    exact { h with
      window := rfl
      pendingIn := fun w hw ↦ by
        cases hw
        exact hin [] fun b hb ↦ absurd hb List.not_mem_nil }
  | some w =>
    rw [hw] at hwindow
    rw [hwindow]
    exact { h with
      window := by
        show some _ = some _
        rw [OpenWindow.renumber, List.map_append, List.map_singleton]
        rfl
      pendingIn := fun w' hw' ↦ by
        cases hw'
        exact hin w.bids (h.pendingIn w hw) }

theorem requeueRemainder (h : Tracks ρ S K s t) (exhausted : Bool) {b : PendingBid}
    (hb : b.seq ∈ S) (alloc : Qty) :
    Tracks ρ S K (s.requeueRemainder exhausted b alloc)
      (t.requeueRemainder exhausted (b.renumber ρ) alloc) := by
  unfold AuctionState.requeueRemainder
  dsimp only [PendingBid.renumber]
  cases b.restingLimit with
  | none => exact h
  | some limit =>
    cases Qty.isZero (b.qty.saturatingSub alloc) || exhausted with
    | true => exact h
    | false =>
      exact { h.commit b.participant limit (b.qty.saturatingSub alloc) with
        resting := by
          show t.resting.requeue _ = _
          rw [h.resting, ← PriceLadder.requeue_renumber]
          rfl
        restingIn := fun c hc ↦ by
          rcases PriceLadder.mem_bids_requeue hc with rfl | hc
          · exact hb
          · exact h.restingIn c hc }

theorem settle (h : Tracks ρ S K s t) (price : Price) (exhausted : Bool) {b : PendingBid}
    (hb : b.seq ∈ S) (alloc : ℕ) :
    Tracks ρ S K (s.settle price exhausted (b, alloc)).1
      (t.settle price exhausted (b.renumber ρ, alloc)).1 := by
  unfold AuctionState.settle
  dsimp only
  by_cases hz : Qty.isZero (U64.saturate alloc) = true
  · rw [if_pos hz, if_pos hz]
    exact h.turnAway .supplyExhausted b.participant b.key b.reservePrice b.qty
  · rw [if_neg hz, if_neg hz]
    refine Tracks.requeueRemainder ?_ exhausted hb _
    refine Tracks.setOutcome ?_ b.key _
    have hmoney := (h.release b.participant b.reservePrice b.qty).commit b.participant price
      (U64.saturate alloc)
    exact { hmoney with
      nextFillId := by
        show t.nextFillId + 1 = s.nextFillId + 1
        rw [h.nextFillId]
      fills := by
        show t.fills ++ [_] = (s.fills ++ [_]).map (Fill.renumber ρ)
        rw [h.fills, h.nextFillId, List.map_append, List.map_singleton]
        rfl
      filledIn := fun f hf ↦ by
        rcases List.mem_append.mp hf with hf | hf
        · exact h.filledIn f hf
        · rw [List.mem_singleton.mp hf]
          exact hb }

theorem matchWindow (h : Tracks ρ S K s t) (hρ : StrictMonoOn ρ S) (price : Price)
    {bids : List PendingBid} (hbids : ∀ b ∈ bids, b.seq ∈ S) :
    Tracks ρ S K (s.matchWindow price bids).1
      (t.matchWindow price (bids.map (PendingBid.renumber ρ))).1 := by
  unfold AuctionState.matchWindow
  dsimp only
  rw [byPriority_renumber hρ hbids, priceLevels_renumber, matchLevels_renumber,
    h.supplyRemaining, List.zip_map_left]
  generalize matchLevels (priceLevels (byPriority bids)) s.supplyRemaining false = m
  have hloop : Tracks ρ S K
      (Emit.forEach (AuctionState.settle price m.2.2) ((byPriority bids).zip m.1)
        { s with supplyRemaining := m.2.1 }).1
      (Emit.forEach (AuctionState.settle price m.2.2)
        (((byPriority bids).zip m.1).map (Prod.map (PendingBid.renumber ρ) id))
        { t with supplyRemaining := m.2.1 }).1 := by
    refine Emit.forEach_lockstep _ (fun ba hba _ _ hpass ↦ ?_) { h with supplyRemaining := rfl }
    have hb := (List.mem_insertionSort _).mp (List.of_mem_zip hba).1
    exact hpass.settle price _ (hbids ba.1 hb) ba.2
  simp only [Emit.andThen_fst]
  split_ifs
  · exact hloop.clear price
  · exact hloop

theorem flushWindow (h : Tracks ρ S K s t) (hρ : StrictMonoOn ρ S) :
    Tracks ρ S K s.flushWindow.1 t.flushWindow.1 := by
  have hwindow := h.window
  unfold AuctionState.flushWindow
  cases hw : s.window with
  | none =>
    rw [hw] at hwindow
    rw [hwindow]
    exact h
  | some w =>
    rw [hw] at hwindow
    rw [hwindow]
    have hclosed : Tracks ρ S K { s with window := none } { t with window := none } :=
      { h with
        window := rfl
        pendingIn := fun w hw ↦ nomatch hw }
    have hlive : t.status.acceptsBids = s.status.acceptsBids := by rw [h.status]
    simp only [Option.map_some, hlive]
    split_ifs
    · exact hclosed.matchWindow hρ w.price (h.pendingIn w hw)
    · exact Emit.forEach_lockstep _ (fun b _ _ _ hpass ↦ hpass.turnAway _ _ _ _ _) hclosed

theorem closeElapsedWindow (h : Tracks ρ S K s t) (hρ : StrictMonoOn ρ S) (ts : Nanos) :
    Tracks ρ S K (s.closeElapsedWindow ts).1 (t.closeElapsedWindow ts).1 := by
  have hwindow := h.window
  unfold AuctionState.closeElapsedWindow
  cases hw : s.window with
  | none =>
    rw [hw] at hwindow
    rw [hwindow]
    exact h
  | some w =>
    rw [hw] at hwindow
    rw [hwindow]
    simp only [Option.map_some, h.config]
    have hindex : (OpenWindow.renumber ρ w).index = w.index := rfl
    rw [hindex]
    split_ifs
    · exact h.flushWindow hρ
    · exact h

/-! ## Handlers

A bid is checked for its key first, so the key must be on record on both sides or on neither. After
that both sides take the same branch. -/

theorem onOpen (h : Tracks ρ S K s t) : Tracks ρ S K s.onOpen.1 t.onOpen.1 := by
  unfold AuctionState.onOpen
  rw [h.status]
  split_ifs
  · exact { h with status := rfl }
  · exact h

theorem onSetCollateral (h : Tracks ρ S K s t) (p : ParticipantId) (limit : I64) :
    Tracks ρ S K (s.onSetCollateral p limit).1 (t.onSetCollateral p limit).1 := by
  have hc : t.collateralOf p = s.collateralOf p := congrFun h.accounts p
  unfold AuctionState.onSetCollateral
  dsimp only
  rw [hc]
  exact h.of_accounts (by rw [accounts_update, accounts_update, h.accounts])

theorem onTake (h : Tracks ρ S K s t) (hρ : StrictMonoOn ρ S) {seq : Seq} (hseq : seq ∈ S)
    (ts : Nanos) (p : ParticipantId) (key : IdempotencyKey) (qty : Qty) (expected : Price) :
    Tracks ρ S K (s.onTake seq ts p key qty expected).1
      (t.onTake (ρ seq) ts p key qty expected).1 := by
  unfold AuctionState.onTake
  rw [h.config]
  dsimp only
  split_ifs with hmoved
  · exact h.setOutcome key _
  obtain ⟨hres, hreserved⟩ := h.reserve p (s.config.windowBounds ts).2 qty
  generalize s.reserve p (s.config.windowBounds ts).2 qty = r at hres hreserved ⊢
  generalize t.reserve p (s.config.windowBounds ts).2 qty = r' at hres hreserved ⊢
  obtain ⟨u, covered⟩ := r
  obtain ⟨u', covered'⟩ := r'
  obtain rfl : covered' = covered := hres
  cases covered' with
  | false => exact hreserved.setOutcome key _
  | true =>
    have hqueued := (hreserved.pushPending (s.config.windowBounds ts).1 (s.config.windowBounds ts).2
      (b := ⟨seq, p, key, qty, (s.config.windowBounds ts).2, (s.config.windowBounds ts).2, none⟩)
      hseq).setOutcome key (.queued qty)
    have hconfig : ((u'.pushPending (s.config.windowBounds ts).1 (s.config.windowBounds ts).2
        ⟨ρ seq, p, key, qty, (s.config.windowBounds ts).2, (s.config.windowBounds ts).2,
          none⟩).setOutcome key (.queued qty)).config = _ := hqueued.config
    simp only [Emit.andThen_fst]
    rw [hconfig]
    split_ifs
    · exact hqueued.flushWindow hρ
    · exact hqueued

theorem onRest (h : Tracks ρ S K s t) {seq : Seq} (hseq : seq ∈ S) (ts : Nanos)
    (p : ParticipantId) (key : IdempotencyKey) (qty : Qty) (limit : Price) :
    Tracks ρ S K (s.onRest seq ts p key qty limit).1 (t.onRest (ρ seq) ts p key qty limit).1 := by
  unfold AuctionState.onRest
  rw [h.config]
  dsimp only
  split_ifs with habove
  · exact h.setOutcome key _
  obtain ⟨hres, hreserved⟩ := h.reserve p limit qty
  generalize s.reserve p limit qty = r at hres hreserved ⊢
  generalize t.reserve p limit qty = r' at hres hreserved ⊢
  obtain ⟨u, covered⟩ := r
  obtain ⟨u', covered'⟩ := r'
  obtain rfl : covered' = covered := hres
  cases covered' with
  | false => exact hreserved.setOutcome key _
  | true =>
    refine Tracks.setOutcome ?_ key _
    exact { hreserved with
      resting := by
        show u'.resting.insert _ = _
        rw [hreserved.resting, ← PriceLadder.insert_renumber]
        rfl
      restingIn := fun b hb ↦ by
        rcases List.mem_cons.mp ((PriceLadder.bids_insert_perm _).mem_iff.mp hb) with rfl | hb
        · exact hseq
        · exact hreserved.restingIn b hb }

theorem onBid (h : Tracks ρ S K s t) (hρ : StrictMonoOn ρ S) {seq : Seq} (hseq : seq ∈ S)
    (ts : Nanos) (p : ParticipantId) {key : IdempotencyKey} (hkey : key ∉ K) (qty : Qty)
    (kind : BidKind) :
    Tracks ρ S K (s.onBid seq ts p key qty kind).1 (t.onBid (ρ seq) ts p key qty kind).1 := by
  unfold AuctionState.onBid
  rw [h.outcomes key hkey, h.status]
  cases s.outcomes key with
  | some outcome => exact h
  | none =>
    simp only
    split_ifs
    · exact h.setOutcome key _
    · exact h.setOutcome key _
    · cases kind with
      | take expected => exact h.onTake hρ hseq ts p key qty expected
      | resting limit => exact h.onRest hseq ts p key qty limit

theorem onCancelResting (h : Tracks ρ S K s t) (p : ParticipantId) (key : IdempotencyKey) :
    Tracks ρ S K (s.onCancelResting p key).1 (t.onCancelResting p key).1 := by
  unfold AuctionState.onCancelResting
  rw [h.resting, PriceLadder.remove_renumber]
  cases hremove : s.resting.remove p key with
  | mk found resting =>
    cases found with
    | none =>
      dsimp only [Option.map_none]
      cases s.outcomes key with
      | none =>
        cases t.outcomes key with
        | none => exact h
        | some outcome => exact h
      | some outcome =>
        cases t.outcomes key with
        | none => exact h
        | some outcome => exact h
    | some bid =>
      have hperm := (PriceLadder.remove_eq_some (congrArg Prod.fst hremove)).2.2
      rw [hremove] at hperm
      refine Tracks.setOutcome ?_ key .cancelled
      exact { h.release p bid.limit bid.qty with
        resting := rfl
        restingIn := fun b hb ↦ h.restingIn b (hperm.mem_iff.mpr (List.mem_cons_of_mem _ hb)) }

private theorem pushTriggered_foldl (h : Tracks ρ S K s t) (index : U64) (price : Price)
    {bids : List RestingBid} (hbids : ∀ b ∈ bids, b.seq ∈ S) :
    Tracks ρ S K (bids.foldl (AuctionState.pushTriggered index price) s)
      ((bids.map (RestingBid.renumber ρ)).foldl (AuctionState.pushTriggered index price) t) := by
  induction bids generalizing s t with
  | nil => exact h
  | cons b bids ih =>
    rw [List.map_cons, List.foldl_cons, List.foldl_cons]
    exact ih (h.pushPending index price (b := b.toPending) (hbids b List.mem_cons_self))
      fun c hc ↦ hbids c (List.mem_cons_of_mem _ hc)

theorem triggerResting (h : Tracks ρ S K s t) (ts : Nanos) :
    Tracks ρ S K (s.triggerResting ts) (t.triggerResting ts) := by
  have hperm := PriceLadder.bids_drainTriggered_perm (l := s.resting) (s.config.priceAt ts)
  unfold AuctionState.triggerResting
  rw [h.config, h.resting, PriceLadder.drainTriggered_renumber]
  refine Tracks.pushTriggered_foldl ?_ _ _ fun b hb ↦
    h.restingIn b (hperm.mem_iff.mp (List.mem_append_left _ hb))
  exact { h with
    config := rfl
    resting := rfl
    restingIn := fun b hb ↦ h.restingIn b (hperm.mem_iff.mp (List.mem_append_right _ hb)) }

theorem settleAtFloor (h : Tracks ρ S K s t) (hρ : StrictMonoOn ρ S) :
    Tracks ρ S K s.settleAtFloor.1 t.settleAtFloor.1 := by
  have hflushed := h.flushWindow hρ
  unfold AuctionState.settleAtFloor
  simp only [Emit.andThen_fst, hflushed.status, hflushed.config]
  split_ifs
  · exact hflushed.clear _
  · exact hflushed

theorem onTick (h : Tracks ρ S K s t) (hρ : StrictMonoOn ρ S) (ts : Nanos) :
    Tracks ρ S K (s.onTick ts).1 (t.onTick ts).1 := by
  have hfloor : ∀ {u u' : AuctionState}, Tracks ρ S K u u' → Tracks ρ S K
      (if u.status.acceptsBids && u.config.schedule.atFloor ts then u.settleAtFloor else (u, [])).1
      (if u'.status.acceptsBids && u'.config.schedule.atFloor ts then u'.settleAtFloor
        else (u', [])).1 := by
    intro u u' hu
    rw [hu.status, hu.config]
    split_ifs
    · exact hu.settleAtFloor hρ
    · exact hu
  have htriggered := h.triggerResting ts
  unfold AuctionState.onTick
  rw [h.status]
  split_ifs with hlive hbatch hbatch' hbatch'
  · exact h
  · exact hfloor (htriggered.flushWindow hρ)
  · exact absurd (by rw [h.config]; exact hbatch) hbatch'
  · exact absurd (by rw [← h.config]; exact hbatch') hbatch
  · exact hfloor htriggered

theorem onCancel (h : Tracks ρ S K s t) : Tracks ρ S K s.onCancel.1 t.onCancel.1 := by
  have hbids : (t.window.map OpenWindow.bids).getD [] =
      ((s.window.map OpenWindow.bids).getD []).map (PendingBid.renumber ρ) := by
    rw [h.window]
    cases s.window with
    | none => rfl
    | some w => rfl
  unfold AuctionState.onCancel
  rw [h.status, hbids]
  split_ifs
  · exact h
  · refine Tracks.drainLadder ?_ .notLive
    refine Emit.forEach_lockstep _ (fun b _ _ _ hpass ↦ hpass.turnAway _ _ _ _ _) ?_
    exact { h with
      status := rfl
      window := rfl
      pendingIn := fun w hw ↦ nomatch hw }

/-- **Every handler keeps two tracked states tracked**, for a bid under a key that is on record on
both sides or on neither. -/
theorem handle (h : Tracks ρ S K s t) (hρ : StrictMonoOn ρ S) {seq : Seq} (hseq : seq ∈ S)
    (ts : Nanos) {cmd : Command} (hcmd : ∀ k ∈ cmd.key?, k ∉ K) :
    Tracks ρ S K (AuctionState.handle seq ts cmd s).1 (AuctionState.handle (ρ seq) ts cmd t).1 := by
  cases cmd with
  | «open» => exact h.onOpen
  | setCollateral p limit => exact h.onSetCollateral p limit
  | submitBid p key qty kind => exact h.onBid hρ hseq ts p (hcmd key rfl) qty kind
  | cancelResting p key => exact h.onCancelResting p key
  | tick => exact h.onTick hρ ts
  | cancel => exact h.onCancel

theorem stamp (h : Tracks ρ S K s t) (seq seq' : Seq) (ts ts' : Nanos) :
    Tracks ρ S K (s.stamp seq ts) (t.stamp seq' ts') :=
  { h with config := h.config }

/-- **Every command keeps two tracked states tracked**, at the same time on both sides. -/
theorem advance (h : Tracks ρ S K s t) (hρ : StrictMonoOn ρ S) {seq : Seq} (hseq : seq ∈ S)
    (ts : Nanos) (hnow : max ts t.now = max ts s.now) {cmd : Command}
    (hcmd : ∀ k ∈ cmd.key?, k ∉ K) :
    Tracks ρ S K (s.advance seq ts cmd).1 (t.advance (ρ seq) ts cmd).1 := by
  unfold AuctionState.advance
  dsimp only
  rw [hnow]
  exact ((h.stamp _ _ _ _).closeElapsedWindow hρ _).handle hρ hseq _ hcmd

theorem mono (h : Tracks ρ S K s t) {S' : Set Seq} (hS : S ⊆ S') : Tracks ρ S' K s t :=
  { h with
    filledIn := fun f hf ↦ hS (h.filledIn f hf)
    pendingIn := fun w hw b hb ↦ hS (h.pendingIn w hw b hb)
    restingIn := fun b hb ↦ hS (h.restingIn b hb) }

end Tracks

/-- The positions up to the last. -/
def positions (s : AuctionState) : Set Seq := {n | ∃ last, s.lastSeq = some last ∧ n ≤ last}

/-- A state whose numbers are its own. -/
def Numbered (s : AuctionState) : Prop := Tracks id s.positions ∅ s s

theorem numbered_new (config : AuctionConfig) : (new config).Numbered where
  config := rfl
  status := rfl
  supplyRemaining := rfl
  clearingPrice := rfl
  fills := rfl
  nextFillId := rfl
  resting := rfl
  window := rfl
  accounts := rfl
  outcomes := fun _ _ ↦ rfl
  filledIn := fun _ hf ↦ absurd hf List.not_mem_nil
  pendingIn := fun _ hw ↦ nomatch hw
  restingIn := fun _ hb ↦ absurd hb List.not_mem_nil

theorem Numbered.step {s s' : AuctionState} {r : LogRecord} {o : List Event} (h : s.Numbered)
    (hstep : s.step r = some (s', o)) : s'.Numbered := by
  obtain ⟨haccepts, hadvance⟩ := step_eq_some hstep
  have hlast := step_lastSeq hstep
  have hgrow : s.positions ⊆ s'.positions := by
    rintro n ⟨last, hl, hn⟩
    have hnext := Seq.next_eq_some.mp (haccepts last hl)
    exact ⟨r.seq, hlast, hn.trans (U64.le_def.mpr (by omega))⟩
  have hmem : r.seq ∈ s'.positions := ⟨r.seq, hlast, le_rfl⟩
  have hnone : ∀ k ∈ r.cmd.key?, k ∉ (∅ : Set IdempotencyKey) := fun k _ ↦ Set.notMem_empty k
  have hadv := (h.mono hgrow).advance strictMonoOn_id hmem r.ts rfl hnone
  rw [id, hadvance] at hadv
  exact hadv

end AuctionState

theorem run_numbered {config : AuctionConfig} {tr : List Transition} {s : AuctionState}
    (hrun : Run config tr s) : s.Numbered :=
  hrun.invariant (AuctionState.numbered_new config) fun _ _ _ _ h h' ↦ h.step h'

end DutchAuction
