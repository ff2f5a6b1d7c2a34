import Mathlib.Algebra.Order.Group.Multiset
import DutchAuction.Core.Book
import DutchAuction.Core.Pricing

/-!
# The machine refines the book

`AuctionState.book` reads the book off a state: the bids of the window and of the ladder, each with
the price it reserved at, the fills, the record and the accounts. Every command moves the book by
moves of `Book.Move`, so an invariant of the book holds of every state of a run (`run_book`).

Two loops work on elements they have already taken out of the state: the settlement of a window's
bids and the repricing of the fills. For those the book is read together with what the loop still
holds (`holding`), and each pass is one move.

That a fill never costs more than was reserved, and that repricing only goes down, is what the
pricing invariant says; the moves demand it, so the refinement is proved under that invariant.
-/

namespace DutchAuction

/-- A bid of the window, as the book sees it. -/
def PendingBid.live (b : PendingBid) : LiveBid := ⟨b.participant, b.key, b.qty, b.reservePrice⟩

/-- A bid of the ladder, as the book sees it. -/
def RestingBid.live (b : RestingBid) : LiveBid := ⟨b.participant, b.key, b.qty, b.limit⟩

/-- The accounts a map of collateral stands for. -/
def accounts (map : ParticipantId → Option Collateral) : ParticipantId → Collateral :=
  fun p ↦ (map p).getD default

theorem accounts_update (map : ParticipantId → Option Collateral) (p : ParticipantId)
    (c : Collateral) :
    accounts (Function.update map p (some c)) = Function.update (accounts map) p c := by
  funext q
  by_cases hq : q = p
  · rw [hq, Function.update_self, accounts, Function.update_self, Option.getD_some]
  · rw [Function.update_of_ne hq, accounts, Function.update_of_ne hq, accounts]

theorem accounts_release (map : ParticipantId → Option Collateral) (p : ParticipantId)
    (price : Price) (qty : Qty) :
    accounts (release map p price qty) =
      Function.update (accounts map) p ((accounts map p).release price qty) :=
  accounts_update map p _

theorem accounts_commit (map : ParticipantId → Option Collateral) (p : ParticipantId)
    (price : Price) (qty : Qty) :
    accounts (commit map p price qty) =
      Function.update (accounts map) p ((accounts map p).commit price qty) :=
  accounts_update map p _

theorem Collateral.release_sub_self (c : Collateral) (price : Price) (qty : Qty) :
    c.release (price.saturatingSub price) qty = c := by
  have hzero : (price.saturatingSub price).val = 0 := by
    rw [I64.saturatingSub, sub_self]
    rfl
  have hamount : ((Price.checkedMulQty (price.saturatingSub price) qty).getD 0).val = 0 := by
    cases hcost : Price.checkedMulQty (price.saturatingSub price) qty with
    | none => rfl
    | some cost =>
      have hval := (Price.checkedMulQty_eq_some.mp hcost).2
      rw [hzero, zero_mul] at hval
      exact hval
  have hcommitted : c.committed.saturatingSub
      ((Price.checkedMulQty (price.saturatingSub price) qty).getD 0) = c.committed := by
    refine I64.ext ?_
    rw [I64.saturatingSub, hamount, sub_zero]
    exact I64.val_saturate_of_mem c.committed.neg_le c.committed.val_lt
  rw [Collateral.release, hcommitted]

/-- The bids that hold a reservation: in the window, and on the ladder. -/
def inFlight (window : Option OpenWindow) (resting : PriceLadder) : Multiset LiveBid :=
  (((window.map OpenWindow.bids).getD []).map PendingBid.live : List LiveBid) +
    (resting.bids.map RestingBid.live : List LiveBid)

theorem inFlight_push (w : OpenWindow) (bids : List PendingBid) (resting : PriceLadder) :
    inFlight (some { w with bids := w.bids ++ bids }) resting =
      ((bids.map PendingBid.live : List LiveBid) : Multiset LiveBid) +
        inFlight (some w) resting := by
  unfold inFlight
  simp only [Option.map_some, Option.getD_some, List.map_append, ← Multiset.coe_add]
  rw [add_assoc, add_left_comm]

namespace AuctionState

/-- The book of a state, together with bids and fills that a loop has taken out and not yet dealt
with. -/
def holding (s : AuctionState) (bids : List LiveBid) (undone : List Fill) : Book where
  live := (bids : Multiset LiveBid) + inFlight s.window s.resting
  fills := s.fills ++ undone
  outcomes := s.outcomes
  accounts := accounts s.collateral

/-- The book of a state. -/
def book (s : AuctionState) : Book where
  live := inFlight s.window s.resting
  fills := s.fills
  outcomes := s.outcomes
  accounts := accounts s.collateral

variable {s : AuctionState} {floor : Price} {cmd : Command} {bids : List LiveBid}
  {undone : List Fill}

@[simp] theorem holding_nil (s : AuctionState) : s.holding [] [] = s.book := by
  rw [holding, Multiset.coe_nil, zero_add, List.append_nil, book]

/-! ## One pass of each loop

A loop holds the bids it has taken out of the window or the ladder. While it runs, the book is what
the state has in flight together with the bids held, and a pass is a move of that book: a bid is
filled, retired, or a fill moves down. -/

theorem move_turnAway (reason : RejectReason) (b : LiveBid) :
    Book.Move floor cmd (s.holding (b :: bids) undone)
      ((s.turnAway reason b.participant b.key b.price b.qty).1.holding bids undone) := by
  have hmove : Book.Move floor cmd (s.holding (b :: bids) undone) _ := .retire b
    ((bids : Multiset LiveBid) + inFlight s.window s.resting) (.rejected reason)
    (by rw [holding, ← Multiset.cons_coe, Multiset.cons_add]) (Or.inr ⟨reason, rfl⟩)
  unfold turnAway reject setOutcome holding
  dsimp only
  rw [accounts_release]
  exact hmove

theorem move_reject {key : IdempotencyKey} (reason : RejectReason) (hkey : s.outcomes key = none) :
    Book.Move floor cmd s.book (s.reject key reason).1.book := by
  have hmove : Book.Move floor cmd s.book _ := .refuse key reason hkey
  unfold reject setOutcome book
  rw [hkey]
  exact hmove

theorem move_settle {price : Price} {exhausted : Bool} {b : PendingBid} {alloc : ℕ}
    (hfloor : floor ≤ price) (hprice : price ≤ b.reservePrice) (hle : alloc ≤ b.qty.val)
    (hfull : 0 < alloc → exhausted = false → alloc = b.qty.val) :
    Book.Move floor cmd (s.holding (b.live :: bids) [])
      ((s.settle price exhausted (b, alloc)).1.holding bids []) := by
  by_cases hz : alloc = 0
  · subst hz
    rw [settle_zero]
    exact move_turnAway .supplyExhausted b.live
  · have hpos : 0 < alloc := Nat.pos_of_ne_zero hz
    have hval : (U64.saturate alloc).val = alloc :=
      U64.val_saturate_of_lt (hle.trans_lt b.qty.val_lt)
    have hmove : Book.Move floor cmd (s.holding (b.live :: bids) []) _ := .fill b.live
      ((bids : Multiset LiveBid) + inFlight s.window s.resting)
      ⟨s.nextFillId, b.seq, b.participant, b.key, U64.saturate alloc, price⟩
      (by rw [holding, ← Multiset.cons_coe, Multiset.cons_add]) rfl rfl (hval.symm ▸ hpos)
      (hval.le.trans hle) hfloor hprice
    -- The ladder and the window are as before: there is no remainder to put back.
    have hbare := s.bare_settle price fun hpos ↦ ⟨hle, hfull hpos⟩
    have hwindow : (s.settle price exhausted (b, alloc)).1.window = s.window := by
      have h := congrArg AuctionState.window hbare
      exact h
    have hresting : (s.settle price exhausted (b, alloc)).1.resting = s.resting := by
      have h := congrArg AuctionState.resting hbare
      exact h
    have hmaps := s.settle_maps price hpos hle (hfull hpos)
    have hfills : (s.settle price exhausted (b, alloc)).1.fills =
        s.fills ++ [⟨s.nextFillId, b.seq, b.participant, b.key, U64.saturate alloc, price⟩] := by
      have hfills := congrArg AuctionState.fills hbare
      rw [fillsOf, if_neg hz] at hfills
      exact hfills
    unfold holding at hmove ⊢
    rw [hwindow, hresting, hfills, hmaps.1, hmaps.2, accounts_commit, accounts_release]
    simp only [Function.update_self, Function.update_idem, List.append_nil] at hmove ⊢
    exact hmove

theorem move_repriceFill {price : Price} (f : Fill) (hfloor : floor ≤ price)
    (hprice : price ≤ f.price) :
    Book.Move floor cmd (s.holding [] (f :: undone))
      ((s.repriceFill price f).1.holding [] undone) := by
  have hmove : Book.Move floor cmd (s.holding [] (f :: undone)) _ :=
    .reprice s.fills undone f price rfl hfloor hprice
  unfold repriceFill
  dsimp only
  by_cases heq : f.price = price
  · have hf : f.at price = f := by rw [← heq]; rfl
    have hsame : Function.update (accounts s.collateral) f.participant
        ((accounts s.collateral f.participant).release (f.price.saturatingSub price) f.qty) =
          accounts s.collateral := by
      rw [heq, Collateral.release_sub_self, Function.update_eq_self]
    rw [if_pos heq]
    unfold holding at hmove ⊢
    dsimp only at hmove ⊢
    rw [hsame, hf] at hmove
    rw [List.append_assoc]
    exact hmove
  · rw [if_neg heq]
    unfold holding at hmove ⊢
    dsimp only
    rw [accounts_release, List.append_assoc]
    exact hmove

/-! ## The loops -/

theorem moves_forEach {α : Type*} {f : α → AuctionState → AuctionState × List Event}
    (live : α → LiveBid) (l : List α)
    (pass : ∀ a ∈ l, ∀ (s : AuctionState) (bids : List LiveBid),
      Book.Move floor cmd (s.holding (live a :: bids) []) ((f a s).1.holding bids []))
    (s : AuctionState) :
    Book.Moves floor cmd (s.holding (l.map live) []) (Emit.forEach f l s).1.book := by
  induction l generalizing s with
  | nil =>
    rw [List.map_nil, holding_nil]
    exact Relation.ReflTransGen.refl
  | cons a l ih =>
    rw [List.map_cons, Emit.forEach_cons_fst]
    exact Relation.ReflTransGen.head (pass a List.mem_cons_self s (l.map live))
      (ih (fun b hb ↦ pass b (List.mem_cons_of_mem _ hb)) _)

theorem moves_repriceFill {price : Price} {fills : List Fill} (hfloor : floor ≤ price)
    (hprice : ∀ f ∈ fills, price ≤ f.price) (s : AuctionState) :
    Book.Moves floor cmd (s.holding [] fills)
      (Emit.forEach (repriceFill price) fills s).1.book := by
  induction fills generalizing s with
  | nil =>
    rw [holding_nil]
    exact Relation.ReflTransGen.refl
  | cons f fills ih =>
    rw [Emit.forEach_cons_fst]
    exact Relation.ReflTransGen.head
      (move_repriceFill f hfloor (hprice f List.mem_cons_self))
      (ih (fun g hg ↦ hprice g (List.mem_cons_of_mem _ hg)) _)

theorem holding_window (s : AuctionState) {l : List PendingBid} {w : OpenWindow} (supply : Qty)
    (hw : s.window = some w) (hl : l.Perm w.bids) :
    { s with window := none, supplyRemaining := supply }.holding (l.map PendingBid.live) [] =
      s.book := by
  have hcoe : ((l.map PendingBid.live : List LiveBid) : Multiset LiveBid) =
      (w.bids.map PendingBid.live : List LiveBid) := Multiset.coe_eq_coe.mpr (hl.map _)
  unfold holding book inFlight
  simp only [hw, Option.map_some, Option.getD_some, Option.map_none, Option.getD_none, List.map_nil,
    Multiset.coe_nil, zero_add, List.append_nil, hcoe]

theorem holding_cancelled (s : AuctionState) :
    { s with status := .cancelled, window := none }.holding
      (((s.window.map OpenWindow.bids).getD []).map PendingBid.live) [] = s.book := by
  unfold holding book inFlight
  simp only [Option.map_none, Option.getD_none, List.map_nil, Multiset.coe_nil, zero_add,
    List.append_nil]

theorem holding_ladder (s : AuctionState) :
    { s with resting := s.resting.drainAll.2 }.holding
      (s.resting.drainAll.1.map RestingBid.live) [] = s.book := by
  have hcoe : ((s.resting.drainAll.1.map RestingBid.live : List LiveBid) : Multiset LiveBid) =
      (s.resting.bids.map RestingBid.live : List LiveBid) :=
    Multiset.coe_eq_coe.mpr (PriceLadder.drainAll_perm.map _)
  unfold holding book inFlight
  simp only [PriceLadder.bids_drainAll, List.map_nil, Multiset.coe_nil, add_zero,
    List.append_nil, hcoe]
  rw [add_comm]

theorem holding_fills (s : AuctionState) (price : Price) :
    { s with status := .cleared, clearingPrice := some price, fills := [] }.holding [] s.fills =
      s.book := by
  unfold holding book inFlight
  simp only [Multiset.coe_nil, zero_add, List.nil_append]

theorem moves_drainLadder (reason : RejectReason) (s : AuctionState) :
    Book.Moves floor cmd s.book (s.drainLadder reason).1.book := by
  rw [← s.holding_ladder]
  exact moves_forEach RestingBid.live _ (fun b _ s bids ↦ move_turnAway reason b.live) _

theorem moves_clear {price : Price} (hfloor : floor ≤ price)
    (hprice : ∀ f ∈ s.fills, price ≤ f.price) :
    Book.Moves floor cmd s.book (s.clear price).1.book := by
  have hreprice : Book.Moves floor cmd _ _ := moves_repriceFill hfloor hprice
    { s with status := .cleared, clearingPrice := some price, fills := [] }
  rw [holding_fills] at hreprice
  exact hreprice.trans (moves_drainLadder .unfilled _)

theorem moves_settled {t : Nanos} {w : OpenWindow} (h : PricedAt t s) (hw : s.window = some w)
    (hready : s.Ripe w) : Book.Moves s.config.floorPrice cmd s.book (s.settled w).book := by
  have hfloor : s.config.floorPrice ≤ w.price :=
    (AuctionConfig.floor_le_priceAt s.now).trans hready.priceAt_le
  rw [← s.holding_window (s.supplyAfter w) hw
    (allocations_bids_perm w.bids s.supplyRemaining), List.map_map]
  refine moves_forEach (PendingBid.live ∘ Prod.fst) _ (fun ba hba s' bids ↦ ?_) _
  refine move_settle hfloor (h.covered w hw ba.1 (mem_of_mem_allocations hba))
    (alloc_le_qty hba) fun hpos hex ↦ alloc_eq_qty_of_not_exhausted hba hpos ?_
  exact Bool.eq_false_iff.mpr (of_decide_eq_false hex)

theorem price_le_of_mem_settled {w : OpenWindow} (hready : s.Ripe w) {f : Fill}
    (hf : f ∈ (s.settled w).fills) : w.price ≤ f.price := by
  have hset := congrArg AuctionState.fills (s.bare_settled w)
  rw [show (s.settled w).fills = s.fills ++ s.windowFills w from hset] at hf
  rcases List.mem_append.mp hf with hf | hf
  · exact hready.below f hf
  · obtain ⟨ba, -, -, -, -, -, hprice⟩ := mem_fillsOf hf
    exact hprice.ge

/-- **A flush is a sequence of moves**, if the window it settles is ripe. -/
theorem moves_flushWindow {t : Nanos} (h : PricedAt t s)
    (hripe : ∀ w, s.window = some w → s.status = .live → s.Ripe w) :
    Book.Moves s.config.floorPrice cmd s.book s.flushWindow.1.book := by
  rcases s.flushWindow_cases with ⟨-, hf⟩ | ⟨w, hw, hlive, -⟩ | ⟨w, hw, hlive, hf⟩
  · rw [hf]
  · rw [(h.idle hlive).1] at hw
    cases hw
  · have hready := hripe w hw hlive
    have hfloor : s.config.floorPrice ≤ w.price :=
      (AuctionConfig.floor_le_priceAt s.now).trans hready.priceAt_le
    have hsettle : Book.Moves s.config.floorPrice cmd _ _ := moves_settled h hw hready
    rw [hf, Emit.andThen_fst]
    split_ifs
    · exact hsettle.trans (moves_clear hfloor fun f hf ↦ price_le_of_mem_settled hready hf)
    · exact hsettle

/-! ## Every phase

A phase is a loop, the admission or the withdrawal of one bid, or moves nothing in flight. -/

theorem accounts_reserve (s : AuctionState) (participant : ParticipantId) (price : Price)
    (qty : Qty) :
    ((s.reserve participant price qty).2 = false ∧
      accounts (s.reserve participant price qty).1.collateral = accounts s.collateral) ∨
    ∃ cost, (s.reserve participant price qty).2 = true ∧
      Price.checkedMulQty price qty = some cost ∧
      cost ≤ (accounts s.collateral participant).available ∧
      accounts (s.reserve participant price qty).1.collateral =
        Function.update (accounts s.collateral) participant
          ((accounts s.collateral participant).commit price qty) := by
  rcases s.reserve_cases participant price qty with ⟨hfalse, h | h⟩ | ⟨cost, hcost, hcover, h⟩
  · exact Or.inl ⟨hfalse, by rw [h]⟩
  · refine Or.inl ⟨hfalse, ?_⟩
    rw [h, accounts_update]
    exact Function.update_eq_self participant (accounts s.collateral)
  · refine Or.inr ⟨cost, by rw [h], hcost, hcover, ?_⟩
    rw [h, accounts_update, Collateral.commit, hcost, Option.getD_some]
    rfl

theorem inFlight_currentWindow (s : AuctionState) (resting : PriceLadder) :
    inFlight (some s.currentWindow) resting = inFlight s.window resting := by
  unfold currentWindow
  cases s.window with
  | none => rfl
  | some w => rfl

theorem live_enqueue (s : AuctionState) (seq : Seq) (participant : ParticipantId)
    (key : IdempotencyKey) (qty : Qty) :
    (s.enqueue seq participant key qty).1.book.live =
        ⟨participant, key, qty, (s.config.windowBounds s.now).2⟩ ::ₘ s.book.live ∧
      (s.enqueue seq participant key qty).1.fills = s.fills := by
  obtain ⟨c, hc⟩ := s.reserve_frame participant (s.config.windowBounds s.now).2 qty
  have hflight := inFlight_push s.currentWindow [⟨seq, participant, key, qty,
    (s.config.windowBounds s.now).2, (s.config.windowBounds s.now).2, none⟩] s.resting
  rw [inFlight_currentWindow] at hflight
  unfold enqueue
  dsimp only
  rw [hc]
  exact ⟨hflight, rfl⟩

theorem live_shelve (s : AuctionState) (seq : Seq) (participant : ParticipantId)
    (key : IdempotencyKey) (qty : Qty) (limit : Price) :
    (s.shelve seq participant key qty limit).1.book.live =
        ⟨participant, key, qty, limit⟩ ::ₘ s.book.live ∧
      (s.shelve seq participant key qty limit).1.fills = s.fills := by
  obtain ⟨c, hc⟩ := s.reserve_frame participant limit qty
  have hcoe : (((s.resting.insert ⟨seq, participant, key, qty, limit⟩).bids.map RestingBid.live :
      List LiveBid) : Multiset LiveBid) = (⟨participant, key, qty, limit⟩ : LiveBid) ::ₘ
        (s.resting.bids.map RestingBid.live : List LiveBid) :=
    Multiset.coe_eq_coe.mpr ((PriceLadder.bids_insert_perm _).map _)
  unfold shelve
  dsimp only
  rw [hc]
  refine ⟨?_, rfl⟩
  show inFlight s.window (s.resting.insert ⟨seq, participant, key, qty, limit⟩) = _
  rw [inFlight, hcoe, Multiset.add_cons]
  rfl

theorem move_queue {seq : Seq} {participant : ParticipantId} {key : IdempotencyKey} {qty : Qty}
    {expected : Price} (hcmd : cmd = .submitBid participant key qty (.take expected))
    (hkey : s.outcomes key = none) (hqty : 0 < qty.val)
    (hres : (s.reserve participant (s.config.windowBounds s.now).2 qty).2 = true) :
    Book.Move s.config.floorPrice cmd s.book (s.enqueue seq participant key qty).1.book := by
  obtain ⟨hfalse, -⟩ | ⟨cost, -, hcost, hcover, haccounts⟩ :=
    s.accounts_reserve participant (s.config.windowBounds s.now).2 qty
  · rw [hres] at hfalse
    cases hfalse
  have hmove : Book.Move s.config.floorPrice cmd s.book _ := .accept
    ⟨participant, key, qty, (s.config.windowBounds s.now).2⟩ _ _ cost hcmd
    (Or.inl ⟨expected, rfl, AuctionConfig.floor_le_windowPrice s.now⟩) (Or.inl rfl) hkey hqty hcost
    hcover
  obtain ⟨hlive, -⟩ := s.live_enqueue seq participant key qty
  have hbook : (s.enqueue seq participant key qty).1.book =
      ⟨(s.enqueue seq participant key qty).1.book.live, s.fills,
        Function.update s.outcomes key (some (mergeOutcome (s.outcomes key) (.queued qty))),
        accounts (s.reserve participant (s.config.windowBounds s.now).2 qty).1.collateral⟩ := by
    obtain ⟨c, hc⟩ := s.reserve_frame participant (s.config.windowBounds s.now).2 qty
    unfold enqueue
    dsimp only
    rw [hc]
    rfl
  rw [hbook, hlive, haccounts, hkey]
  exact hmove

theorem move_rest {seq : Seq} {participant : ParticipantId} {key : IdempotencyKey} {qty : Qty}
    {limit : Price} (hcmd : cmd = .submitBid participant key qty (.resting limit))
    (hkey : s.outcomes key = none) (hqty : 0 < qty.val)
    (hres : (s.reserve participant limit qty).2 = true) :
    Book.Move s.config.floorPrice cmd s.book (s.shelve seq participant key qty limit).1.book := by
  obtain ⟨hfalse, -⟩ | ⟨cost, -, hcost, hcover, haccounts⟩ :=
    s.accounts_reserve participant limit qty
  · rw [hres] at hfalse
    cases hfalse
  have hmove : Book.Move s.config.floorPrice cmd s.book _ := .accept
    ⟨participant, key, qty, limit⟩ _ _ cost hcmd (Or.inr rfl) (Or.inr rfl) hkey hqty hcost hcover
  obtain ⟨hlive, -⟩ := s.live_shelve seq participant key qty limit
  have hbook : (s.shelve seq participant key qty limit).1.book =
      ⟨(s.shelve seq participant key qty limit).1.book.live, s.fills,
        Function.update s.outcomes key (some (mergeOutcome (s.outcomes key) (.resting qty))),
        accounts (s.reserve participant limit qty).1.collateral⟩ := by
    obtain ⟨c, hc⟩ := s.reserve_frame participant limit qty
    unfold shelve
    dsimp only
    rw [hc]
    rfl
  rw [hbook, hlive, haccounts, hkey]
  exact hmove

theorem move_withdraw {participant : ParticipantId} {key : IdempotencyKey} {bid : RestingBid}
    (hbid : (s.resting.remove participant key).1 = some bid) :
    Book.Move floor cmd s.book (s.withdraw participant key bid).1.book := by
  obtain ⟨hkey, hparticipant, hperm⟩ := PriceLadder.remove_eq_some hbid
  have hcoe : ((s.resting.bids.map RestingBid.live : List LiveBid) : Multiset LiveBid) =
      bid.live ::ₘ ((s.resting.remove participant key).2.bids.map RestingBid.live : List LiveBid) :=
    Multiset.coe_eq_coe.mpr (hperm.map _)
  have hmove : Book.Move floor cmd s.book _ := .retire bid.live
    (inFlight s.window (s.resting.remove participant key).2) .cancelled
    (by rw [book, inFlight, hcoe, Multiset.add_cons, inFlight]) (Or.inl rfl)
  unfold withdraw setOutcome book
  dsimp only
  rw [accounts_release, ← hparticipant, ← hkey]
  rw [← hparticipant, ← hkey] at hmove
  exact hmove

theorem book_triggerResting (s : AuctionState) : (s.triggerResting s.now).book = s.book := by
  have hperm := PriceLadder.bids_drainTriggered_perm (l := s.resting) (s.config.priceAt s.now)
  rw [s.triggerResting_eq, book, book]
  dsimp only
  congr 1
  split_ifs with hnil
  · rw [hnil, List.nil_append] at hperm
    rw [inFlight, inFlight, Multiset.coe_eq_coe.mpr (hperm.map RestingBid.live)]
  · have hlive : ((s.resting.drainTriggered (s.config.priceAt s.now)).1.map
        RestingBid.toPending).map PendingBid.live =
          (s.resting.drainTriggered (s.config.priceAt s.now)).1.map RestingBid.live :=
      List.map_map
    rw [inFlight_push, inFlight_currentWindow, hlive, inFlight, inFlight, add_left_comm,
      Multiset.coe_add, ← List.map_append, Multiset.coe_eq_coe.mpr (hperm.map RestingBid.live)]

/-- **Every phase is a sequence of moves.** -/
theorem Phase.moves {r : AuctionState × List Event} (h : s.Priced) (hphase : s.Phase cmd r) :
    Book.Moves s.config.floorPrice cmd s.book r.1.book := by
  cases hphase with
  | duplicate => exact Relation.ReflTransGen.refl
  | unknown => exact Relation.ReflTransGen.refl
  | refuse key reason hkey => exact Relation.ReflTransGen.single (move_reject reason hkey)
  | uncovered participant key price qty hkey hres =>
    obtain ⟨-, haccounts⟩ | ⟨cost, htrue, -⟩ :=
      s.accounts_reserve participant price qty
    · obtain ⟨c, hc⟩ := s.reserve_frame participant price qty
      have hbook : (s.reserve participant price qty).1.book = s.book := by
        rw [hc] at haccounts ⊢
        unfold book
        rw [haccounts]
      rw [← hbook]
      refine Relation.ReflTransGen.single (move_reject _ ?_)
      rw [hc]
      exact hkey
    · rw [hres] at htrue
      cases htrue
  | queue seq participant key qty expected hcmd hkey hqty _ hres =>
    exact Relation.ReflTransGen.single (move_queue hcmd hkey hqty hres)
  | rest seq participant key qty limit hcmd hkey hqty _ _ hres =>
    exact Relation.ReflTransGen.single (move_rest hcmd hkey hqty hres)
  | withdraw participant key bid hbid => exact Relation.ReflTransGen.single (move_withdraw hbid)
  | fund participant limit hcmd =>
    have hmove : Book.Move s.config.floorPrice cmd s.book _ := .fund participant limit hcmd
    refine Relation.ReflTransGen.single ?_
    unfold onSetCollateral book
    dsimp only
    rw [accounts_update]
    exact hmove
  | «open» hpending =>
    rw [onOpen, if_pos hpending]
    exact Relation.ReflTransGen.refl
  | trigger => rw [book_triggerResting]
  | flush hlive hwhen => exact moves_flushWindow h fun w hw _ ↦ h.ripe hw hlive hwhen
  | floor hlive =>
    refine moves_clear le_rfl fun f hf ↦ ?_
    have hreached := h.fills f hf
    rw [reached_eq_priceAt h hlive] at hreached
    exact (AuctionConfig.floor_le_priceAt s.now).trans hreached
  | cancel hopen =>
    rw [onCancel, if_neg (by rw [hopen]; exact Bool.false_ne_true), Emit.andThen_fst,
      Emit.andThen_fst]
    refine Relation.ReflTransGen.trans ?_ (moves_drainLadder .notLive _)
    have hloop : Book.Moves s.config.floorPrice cmd _ _ := moves_forEach PendingBid.live
      ((s.window.map OpenWindow.bids).getD []) (fun b _ s bids ↦ move_turnAway .notLive b.live)
      { s with status := .cancelled, window := none }
    rwa [holding_cancelled] at hloop

theorem PricedBefore.moves (h : s.PricedBefore) :
    Book.Moves s.config.floorPrice cmd s.book (s.closeElapsedWindow s.now).1.book := by
  obtain ⟨t, ht, h⟩ := h
  rcases s.closeElapsedWindow_cases s.now with ⟨heq, -⟩ | ⟨w, hw, helapsed, heq⟩
  · rw [heq]
  · rw [heq]
    refine moves_flushWindow h fun w' hw' hlive ↦ ?_
    rw [hw] at hw'
    cases hw'
    exact h.ripe_of_elapsed hw hlive helapsed

/-- **Every command is a sequence of moves.** -/
theorem Priced.moves {r : LogRecord} {s' : AuctionState} {o : List Event} (h : s.Priced)
    (hstep : s.step r = some (s', o)) :
    Book.Moves s.config.floorPrice r.cmd s.book s'.book := by
  obtain ⟨-, hadvance⟩ := step_eq_some hstep
  obtain ⟨t, hsteps, heq⟩ := s.advance_eq r.seq r.ts r.cmd
  have hbefore := h.stamp r.seq r.ts
  have hclose : Book.Moves s.config.floorPrice r.cmd s.book
      ((s.stamp r.seq r.ts).closeElapsedWindow (s.stamp r.seq r.ts).now).1.book := hbefore.moves
  have hkeep := hsteps.keeps
    (P := fun u ↦ u.Priced ∧ u.config = s.config ∧
      Book.Moves s.config.floorPrice r.cmd s.book u.book)
    (fun u v hu hv ↦ ⟨hu.1.phase hv, hv.frame.1.trans hu.2.1,
      hu.2.2.trans (hu.2.1 ▸ hv.moves hu.1)⟩)
    ⟨hbefore.close, (closeElapsedWindow_frame _ _).1, hclose⟩
  rw [hadvance] at heq
  cases heq
  exact hkeep.2.2

end AuctionState

/-! ## Invariants of the book -/

/-- **The book rule.** What holds of the empty book and is kept by every move that a run's commands
can make holds of the book of every state of the run. -/
theorem run_book {config : AuctionConfig} {P : Book → Prop} {C : Command → Prop}
    (base : P ⟨0, [], fun _ ↦ none, fun _ ↦ default⟩)
    (move : ∀ cmd B B', C cmd → P B → Book.Move config.floorPrice cmd B B' → P B')
    {tr : List Transition} {s : AuctionState} (hrun : Run config tr s)
    (hC : ∀ t ∈ tr, C t.input.cmd) : P s.book := by
  have h : s.Priced ∧ s.config = config ∧ P s.book :=
    hrun.invariant_of (P := fun s ↦ s.Priced ∧ s.config = config ∧ P s.book)
      (C := fun t ↦ C t.input.cmd) ⟨AuctionState.priced_new config, rfl, base⟩
      (fun s r s' o hs hstep hcmd ↦ by
        obtain ⟨hpriced, hconfig, hbook⟩ := hs
        refine ⟨hpriced.step hstep, (step_frame hstep).1.trans hconfig, ?_⟩
        have hmoves := hpriced.moves hstep
        rw [hconfig] at hmoves
        exact hmoves.keeps (fun B B' hB hmove ↦ move r.cmd B B' hcmd hB hmove) hbook) hC
  exact h.2.2

end DutchAuction
