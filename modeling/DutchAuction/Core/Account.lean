import DutchAuction.Core.Keys
import DutchAuction.Core.Supply

/-!
# The events are a complete account

A reader of the event stream keeps an account of the auction: its status and clearing price, the
units left, the fills, what each participant may spend and what became of each key. `Account.record`
is how one event changes it, with no knowledge of the machine that produced the event.

The account a reader arrives at is the one the state would give (`AuctionState.account`), after
every command of every run. Two things have to be right for that. The events overwrite what is on
record for a key, while the machine merges it with what is there: the two agree because only keys
that are fresh or live are ever answered. And a loop has announced only part of what the state
already says, so in a loop the state is read as its events so far describe it (`showing`): with the
supply not yet spent, the fills not yet repriced, or the status from before.
-/

namespace DutchAuction

/-- What a reader of the event stream knows. -/
structure Account where
  status : Status
  clearingPrice : Option Price
  supplyRemaining : Qty
  fills : List Fill
  /-- What each participant may spend. -/
  ceilings : ParticipantId → I64
  outcomes : IdempotencyKey → Option Outcome

namespace Account

/-- Before the first event. -/
def start (config : AuctionConfig) : Account where
  status := .pending
  clearingPrice := none
  supplyRemaining := config.totalSupply
  fills := []
  ceilings := fun _ ↦ 0
  outcomes := fun _ ↦ none

/-- Note what became of a key, whatever was noted before. -/
def note (key : IdempotencyKey) (outcome : Outcome) (a : Account) : Account :=
  { a with outcomes := Function.update a.outcomes key (some outcome) }

/-- Move the fill numbered `id` to `price`, and what its key's record quotes with it. -/
def reprice (id : FillId) (price : Price) (a : Account) : Account :=
  { a with
    fills := a.fills.map fun f ↦ if f.id = id then f.at price else f
    outcomes :=
      match a.fills.find? fun f ↦ f.id = id with
      | none => a.outcomes
      | some f =>
        Function.update a.outcomes f.key ((a.outcomes f.key).map (Outcome.quoting price)) }

/-- Read one event. -/
def record (a : Account) : Event → Account
  | .opened _ _ => { a with status := .live }
  | .collateralSet participant limit =>
    { a with ceilings := Function.update a.ceilings participant limit }
  | .queued key _ qty _ => a.note key (.queued qty)
  | .rested key _ qty _ => a.note key (.resting qty)
  | .restingCancelled key _ _ => a.note key .cancelled
  | .filled f =>
    { a with
      fills := a.fills ++ [f]
      supplyRemaining := a.supplyRemaining.saturatingSub f.qty }.note f.key (.filled f.qty f.price)
  | .rejected _ .unknownBid => a
  | .rejected key reason => a.note key (.rejected reason)
  | .duplicate _ _ => a
  | .repriced id _ price => a.reprice id price
  | .cleared price _ _ => { a with status := .cleared, clearingPrice := some price }
  | .cancelled => { a with status := .cancelled }

theorem record_rejected {reason : RejectReason} (h : reason ≠ .unknownBid) (a : Account)
    (key : IdempotencyKey) : a.record (.rejected key reason) = a.note key (.rejected reason) := by
  cases reason with
  | unknownBid => exact absurd rfl h
  | _ => rfl

end Account

namespace AuctionState

/-- The ceilings a map of collateral stands for. -/
def ceilings (map : ParticipantId → Option Collateral) : ParticipantId → I64 :=
  fun p ↦ (accounts map p).limit

/-- The account the state gives of itself. -/
def account (s : AuctionState) : Account where
  status := s.status
  clearingPrice := s.clearingPrice
  supplyRemaining := s.supplyRemaining
  fills := s.fills
  ceilings := ceilings s.collateral
  outcomes := s.outcomes

/-- The account as a loop has announced it so far: at the status, the price and the supply of its
beginning, and with the fills that it has yet to deal with. -/
def showing (status : Status) (price : Option Price) (supply : Qty) (undone : List Fill)
    (s : AuctionState) : Account :=
  { s.account with
    status := status
    clearingPrice := price
    supplyRemaining := supply
    fills := s.fills ++ undone }

variable {s : AuctionState} {status : Status} {shown : Option Price} {supply : Qty}
  {undone : List Fill} {price : Price}

theorem showing_self (s : AuctionState) :
    s.showing s.status s.clearingPrice s.supplyRemaining [] = s.account := by
  rw [showing, List.append_nil, account]

/-! ## Ceilings

Of a participant's account the events only tell the ceiling, when it is set. That loses nothing, as
no money that moves, reserved, released or spent, changes a ceiling. -/

theorem ceilings_update (map : ParticipantId → Option Collateral) (p : ParticipantId)
    (c : Collateral) :
    ceilings (Function.update map p (some c)) = Function.update (ceilings map) p c.limit := by
  funext q
  rw [ceilings, accounts_update]
  by_cases hq : q = p
  · rw [hq, Function.update_self, Function.update_self]
  · rw [Function.update_of_ne hq, Function.update_of_ne hq, ceilings]

@[simp] theorem ceilings_release (map : ParticipantId → Option Collateral) (p : ParticipantId)
    (price : Price) (qty : Qty) : ceilings (release map p price qty) = ceilings map :=
  (ceilings_update map p _).trans (Function.update_eq_self p (ceilings map))

@[simp] theorem ceilings_commit (map : ParticipantId → Option Collateral) (p : ParticipantId)
    (price : Price) (qty : Qty) : ceilings (commit map p price qty) = ceilings map :=
  (ceilings_update map p _).trans (Function.update_eq_self p (ceilings map))

theorem ceilings_reserve (s : AuctionState) (p : ParticipantId) (price : Price) (qty : Qty) :
    ceilings (s.reserve p price qty).1.collateral = ceilings s.collateral := by
  rcases s.reserve_cases p price qty with ⟨-, h | h⟩ | ⟨cost, -, -, h⟩
  · rw [h]
  · rw [h, ceilings_update]
    exact Function.update_eq_self p (ceilings s.collateral)
  · rw [h, ceilings_update]
    exact Function.update_eq_self p (ceilings s.collateral)

/-! ## One pass of each loop

A loop takes the bids it deals with out of the book and holds them. Each pass deals with one of
them, puts what became of it on record, and announces exactly that. A fill that is already at the
price is the exception: nothing is announced, and nothing has changed. -/

/-- On record as nothing, or as live: what happens next is what will be on record. -/
def Answerable (s : AuctionState) (key : IdempotencyKey) : Prop :=
  s.outcomes key = none ∨ ∃ qty, s.outcomes key = some (.queued qty) ∨
    s.outcomes key = some (.resting qty)

theorem Answerable.merge {key : IdempotencyKey} (h : s.Answerable key) (outcome : Outcome) :
    mergeOutcome (s.outcomes key) outcome = outcome := by
  rcases h with h | ⟨qty, h | h⟩
  · rw [h]
    rfl
  · rw [h]
    rfl
  · rw [h]
    rfl

theorem account_setOutcome {key : IdempotencyKey} (h : s.Answerable key) (outcome : Outcome) :
    (s.setOutcome key outcome).account = s.account.note key outcome := by
  have hmerge := h.merge outcome
  unfold setOutcome account Account.note
  dsimp only
  rw [hmerge]

theorem told_reject {reason : RejectReason} (hreason : reason ≠ .unknownBid)
    {key : IdempotencyKey} (hkey : s.Answerable key) :
    (s.reject key reason).2.foldl Account.record s.account = (s.reject key reason).1.account := by
  show Account.record s.account (.rejected key reason) = (s.setOutcome key _).account
  rw [Account.record_rejected hreason, account_setOutcome hkey]

theorem answerable_of_holding {b : LiveBid} {bids : List LiveBid}
    (h : (s.holding (b :: bids) []).Keyed) : s.Answerable b.key := by
  have hb : b ∈ (s.holding (b :: bids) []).live :=
    Multiset.mem_add.mpr (Or.inl (Multiset.mem_coe.mpr List.mem_cons_self))
  exact Or.inr ⟨b.qty, (h.of_live hb).2.2⟩

theorem told_turnAway {reason : RejectReason} (hreason : reason ≠ .unknownBid)
    (participant : ParticipantId) {key : IdempotencyKey} (hkey : s.Answerable key) (price : Price)
    (qty : Qty) :
    (s.turnAway reason participant key price qty).2.foldl Account.record
        (s.showing status shown supply undone) =
      (s.turnAway reason participant key price qty).1.showing status shown supply undone := by
  have hmerge := hkey.merge (.rejected reason)
  show Account.record _ (.rejected key reason) = _
  rw [Account.record_rejected hreason]
  unfold turnAway reject setOutcome showing account Account.note
  simp only [ceilings_release, hmerge]

theorem told_settle {exhausted : Bool} {b : PendingBid} {alloc : ℕ}
    (hkey : s.Answerable b.key) (hle : alloc ≤ b.qty.val)
    (hfull : 0 < alloc → exhausted = false → alloc = b.qty.val) :
    (s.settle price exhausted (b, alloc)).2.foldl Account.record
        (s.showing status shown supply []) =
      (s.settle price exhausted (b, alloc)).1.showing status shown
        (supply.saturatingSub (U64.saturate alloc)) [] := by
  by_cases hz : alloc = 0
  · subst hz
    have hsupply : supply.saturatingSub (U64.saturate 0) = supply := by
      refine U64.ext ?_
      rw [U64.val_saturatingSub]
      rfl
    rw [settle_zero, hsupply]
    exact told_turnAway (by decide : RejectReason.supplyExhausted ≠ .unknownBid) _ hkey _ _
  · have hpos : 0 < alloc := Nat.pos_of_ne_zero hz
    have hmerge := hkey.merge (.filled (U64.saturate alloc) price)
    unfold settle
    dsimp only
    rw [if_neg fun hs ↦ hz (isZero_saturate.mp hs),
      requeueRemainder_eq_self hle (hfull hpos)]
    unfold setOutcome showing account
    simp only [List.foldl_cons, List.foldl_nil, Account.record, Account.note, ceilings_commit,
      ceilings_release, List.append_nil, hmerge]

theorem told_repriceFill {f : Fill}
    (hids : ((s.fills ++ f :: undone).map Fill.id).Nodup)
    (hrecord : s.outcomes f.key = some (.filled f.qty f.price)) :
    (s.repriceFill price f).2.foldl Account.record (s.showing status shown supply (f :: undone)) =
      (s.repriceFill price f).1.showing status shown supply undone := by
  unfold repriceFill
  dsimp only
  by_cases heq : f.price = price
  · have hquote : Function.update s.outcomes f.key
        ((s.outcomes f.key).map (Outcome.quoting price)) = s.outcomes := by
      rw [hrecord, ← heq]
      exact Function.update_eq_self_iff.mpr hrecord.symm
    rw [if_pos heq]
    unfold showing account
    simp only [List.foldl_nil, hquote, List.append_assoc, List.singleton_append]
  · rw [if_neg heq]
    -- The fill is the only one with its number.
    rw [List.map_append, List.map_cons, List.nodup_middle, ← List.map_append, List.nodup_cons,
      List.mem_map, not_exists] at hids
    have hother : ∀ g ∈ s.fills ++ undone, g.id ≠ f.id := fun g hg h ↦ hids.1 g ⟨hg, h⟩
    have hfind : (s.fills ++ f :: undone).find? (fun g ↦ g.id = f.id) = some f := by
      rw [List.find?_append, List.find?_eq_none.mpr fun g hg ↦ ?_, Option.none_or,
        List.find?_cons_of_pos (by simp)]
      exact fun h ↦ hother g (List.mem_append_left _ hg) (of_decide_eq_true h)
    have hmap : ∀ l ⊆ s.fills ++ undone,
        (l.map fun g ↦ if g.id = f.id then g.at price else g) = l := by
      intro l hl
      refine (List.map_congr_left fun g hg ↦ if_neg (hother g (hl hg))).trans (List.map_id l)
    have hfills : ((s.fills ++ f :: undone).map fun g ↦ if g.id = f.id then g.at price else g) =
        s.fills ++ f.at price :: undone := by
      rw [List.map_append, List.map_cons, hmap _ (List.subset_append_left _ _),
        hmap _ (List.subset_append_right _ _), if_pos rfl]
    unfold showing account
    simp only [List.foldl_cons, List.foldl_nil, Account.record, Account.reprice, hfind, hfills,
      ceilings_release, List.append_assoc, List.singleton_append]
    rfl

/-! ## The loops -/

section Loops

variable (status : Status) (shown : Option Price) (supply : Qty)

theorem told_turnAway_loop {α : Type*} {f : α → AuctionState → AuctionState × List Event}
    {reason : RejectReason} (hreason : reason ≠ .unknownBid) (live : α → LiveBid)
    (hf : ∀ a s, f a s =
      s.turnAway reason (live a).participant (live a).key (live a).price (live a).qty)
    {l : List α} (h : (s.holding (l.map live) []).Keyed) :
    (Emit.forEach f l s).2.foldl Account.record (s.showing status shown supply []) =
      (Emit.forEach f l s).1.showing status shown supply [] := by
  refine Emit.forEach_foldl (fun l (s : AuctionState) ↦ (s.holding (l.map live) []).Keyed)
    (fun _ s ↦ s.showing status shown supply []) (fun a as s h ↦ ?_) h
  rw [hf]
  exact ⟨h.move (move_turnAway reason (live a) : Book.Move 0 .tick _ _),
    told_turnAway hreason _ (answerable_of_holding h) _ _⟩

theorem told_drainLadder {reason : RejectReason} (hreason : reason ≠ .unknownBid)
    (h : s.book.Keyed) :
    (s.drainLadder reason).2.foldl Account.record (s.showing status shown supply []) =
      (s.drainLadder reason).1.showing status shown supply [] := by
  rw [← s.holding_ladder] at h
  exact told_turnAway_loop status shown supply hreason RestingBid.live (fun _ _ ↦ rfl) h

theorem told_repriceFill_loop {fills : List Fill} (h : (s.holding [] fills).Keyed)
    (hids : ((s.fills ++ fills).map Fill.id).Nodup) (hprice : ∀ f ∈ fills, price ≤ f.price) :
    (Emit.forEach (repriceFill price) fills s).2.foldl Account.record
        (s.showing status shown supply fills) =
      (Emit.forEach (repriceFill price) fills s).1.showing status shown supply [] := by
  refine Emit.forEach_foldl
    (fun l (s : AuctionState) ↦ (s.holding [] l).Keyed ∧ ((s.fills ++ l).map Fill.id).Nodup ∧
      ∀ f ∈ l, price ≤ f.price)
    (fun l s ↦ s.showing status shown supply l) (fun f l s h ↦ ?_) ⟨h, hids, hprice⟩
  obtain ⟨hkeyed, hids, hprice⟩ := h
  have hmem : f ∈ (s.holding [] (f :: l)).fills := List.mem_append_right _ List.mem_cons_self
  have hfills : (s.repriceFill price f).1.fills = s.fills ++ [f.at price] := by
    have h := congrArg AuctionState.fills (bare_repriceFill (s := s) price f)
    exact h
  refine ⟨⟨?_, ?_, fun g hg ↦ hprice g (List.mem_cons_of_mem _ hg)⟩,
    told_repriceFill hids (hkeyed.of_fill hmem).2.2⟩
  · exact hkeyed.move (move_repriceFill f le_rfl (hprice f List.mem_cons_self) :
      Book.Move _ .tick _ _)
  · rw [hfills, List.append_assoc, List.map_append]
    rw [List.map_append] at hids
    exact hids

theorem told_settle_loop (left : Qty) {exhausted : Bool} {l : List (PendingBid × ℕ)}
    (h : (s.holding (l.map fun ba ↦ ba.1.live) []).Keyed)
    (hbids : ∀ ba ∈ l, price ≤ ba.1.reservePrice ∧ ba.2 ≤ ba.1.qty.val ∧
      (0 < ba.2 → exhausted = false → ba.2 = ba.1.qty.val))
    (hsum : (l.map Prod.snd).sum + left.val < 2 ^ 64) :
    (Emit.forEach (settle price exhausted) l s).2.foldl Account.record
        (s.showing status shown (U64.saturate ((l.map Prod.snd).sum + left.val)) []) =
      (Emit.forEach (settle price exhausted) l s).1.showing status shown left [] := by
  induction l generalizing s with
  | nil =>
    rw [List.map_nil, List.sum_nil, Nat.zero_add, U64.saturate_val]
    rfl
  | cons ba l ih =>
    obtain ⟨hprice, hle, hfull⟩ := hbids ba List.mem_cons_self
    have hspent : (U64.saturate ((((ba :: l).map Prod.snd).sum + left.val))).saturatingSub
        (U64.saturate ba.2) = U64.saturate ((l.map Prod.snd).sum + left.val) := by
      rw [List.map_cons, List.sum_cons] at hsum ⊢
      refine U64.ext ?_
      rw [U64.val_saturatingSub, U64.val_saturate_of_lt hsum, U64.val_saturate_of_lt (by omega),
        U64.val_saturate_of_lt (by omega)]
      omega
    rw [Emit.forEach_cons_snd, Emit.forEach_cons_fst, List.foldl_append,
      told_settle (answerable_of_holding h) hle hfull, hspent]
    rw [List.map_cons, List.sum_cons] at hsum
    exact ih (h.move (move_settle le_rfl hprice hle hfull : Book.Move _ .tick _ _))
      (fun c hc ↦ hbids c (List.mem_cons_of_mem _ hc)) (by omega)

end Loops

/-! ## Clearing and flushing

A clearing announces its price last, so until then the account has the status and the supply of
before. A flush announces its fills and refusals, and then the clearing, if it comes to one. -/

private theorem told_announceCleared (status : Status) (shown : Option Price)
    (hstatus : s.status = .cleared)
    (hprice : s.clearingPrice = some price) :
    (announceCleared price s).2.foldl Account.record
      (s.showing status shown s.supplyRemaining []) = s.account := by
  have hself := s.showing_self
  rw [hstatus, hprice] at hself
  exact hself

/-- **A clearing is announced**: first the fills it moves, then the bids it turns away, and last the
status and the price. -/
theorem told_clear (h : s.book.Keyed) (hids : (s.fills.map Fill.id).Nodup)
    (hprice : ∀ f ∈ s.fills, price ≤ f.price) :
    (s.clear price).2.foldl Account.record s.account = (s.clear price).1.account := by
  rw [← s.holding_fills price] at h
  have hkeyed := (moves_repriceFill le_rfl hprice _ : Book.Moves _ .tick _ _).keeps
    (fun _ _ h hm ↦ h.move hm) h
  have hreprice := told_repriceFill_loop s.status s.clearingPrice s.supplyRemaining h hids hprice
  have hdrain := told_drainLadder s.status s.clearingPrice s.supplyRemaining
    (by decide : RejectReason.unfilled ≠ .unknownBid) hkeyed
  have hbare := s.bare_clear price
  have hsupply := congrArg AuctionState.supplyRemaining hbare
  have hlast := told_announceCleared (s := (s.clear price).1) s.status s.clearingPrice
    (congrArg AuctionState.status hbare) (congrArg AuctionState.clearingPrice hbare)
  rw [show (s.clear price).1.supplyRemaining = s.supplyRemaining from hsupply] at hlast
  have hstart : s.account =
      { s with status := .cleared, clearingPrice := some price, fills := [] }.showing s.status
        s.clearingPrice s.supplyRemaining s.fills := rfl
  rw [clear, Emit.andThen_snd, Emit.andThen_snd, List.foldl_append, List.foldl_append, hstart,
    hreprice, hdrain]
  exact hlast

theorem told_settling {t : Nanos} {w : OpenWindow} (h : PricedAt t s) (hkeyed : s.book.Keyed)
    (hw : s.window = some w) :
    (s.settling w).2.foldl Account.record s.account = (s.settled w).account := by
  have hsum : ((allocations w.bids s.supplyRemaining).map Prod.snd).sum + (s.supplyAfter w).val =
      s.supplyRemaining.val := sum_allocations w.bids s.supplyRemaining
  have hfits : ((allocations w.bids s.supplyRemaining).map Prod.snd).sum +
      (s.supplyAfter w).val < 2 ^ 64 := hsum.trans_lt s.supplyRemaining.val_lt
  have hbare := s.bare_settled w
  have hstatus := congrArg AuctionState.status hbare
  have hprice := congrArg AuctionState.clearingPrice hbare
  have hsupply := congrArg AuctionState.supplyRemaining hbare
  have hself := (s.settled w).showing_self
  rw [show (s.settled w).status = s.status from hstatus,
    show (s.settled w).clearingPrice = s.clearingPrice from hprice,
    show (s.settled w).supplyRemaining = s.supplyAfter w from hsupply] at hself
  rw [← s.holding_window (s.supplyAfter w) hw
    (allocations_bids_perm w.bids s.supplyRemaining), List.map_map] at hkeyed
  have hbids : ∀ ba ∈ allocations w.bids s.supplyRemaining, w.price ≤ ba.1.reservePrice ∧
      ba.2 ≤ ba.1.qty.val ∧
      (0 < ba.2 → decide (s.Exhausts w) = false → ba.2 = ba.1.qty.val) := fun ba hba ↦
    ⟨h.covered w hw ba.1 (mem_of_mem_allocations hba), alloc_le_qty hba, fun hpos hex ↦
      alloc_eq_qty_of_not_exhausted hba hpos (Bool.eq_false_iff.mpr (of_decide_eq_false hex))⟩
  have hloop := told_settle_loop s.status s.clearingPrice (s.supplyAfter w) hkeyed hbids hfits
  rw [hsum, U64.saturate_val] at hloop
  rw [← hself, ← s.showing_self]
  exact hloop

theorem map_id_clear (s : AuctionState) (price : Price) :
    (s.clear price).1.fills.map Fill.id = s.fills.map Fill.id := by
  have hfills := congrArg AuctionState.fills (s.bare_clear price)
  rw [show (s.clear price).1.fills = s.fills.map (Fill.at price) from hfills, map_id_map_at]

theorem Tallied.nodup (h : s.Tallied) : (s.fills.map Fill.id).Nodup := by
  rw [h.numbered]
  exact List.nodup_range

/-- **A flush is announced**, if the window it settles is ripe. -/
theorem told_flushWindow {t : Nanos} (h : PricedAt t s) (hkeyed : s.book.Keyed)
    (htallied : s.Tallied) (hripe : ∀ w, s.window = some w → s.status = .live → s.Ripe w) :
    s.flushWindow.2.foldl Account.record s.account = s.flushWindow.1.account := by
  have htallied' := htallied.flushWindow
  rcases s.flushWindow_cases with ⟨-, hf⟩ | ⟨w, hw, hlive, -⟩ | ⟨w, hw, hlive, hf⟩
  · rw [hf]
    rfl
  · rw [(h.idle hlive).1] at hw
    cases hw
  · have hready := hripe w hw hlive
    have hsettling := told_settling h hkeyed hw
    rw [hf] at htallied' ⊢
    rw [Emit.andThen_snd, Emit.andThen_fst, List.foldl_append, hsettling]
    by_cases hex : s.Exhausts w
    · rw [if_pos hex] at htallied' ⊢
      refine told_clear ?_ ?_ fun f hf ↦ price_le_of_mem_settled hready hf
      · exact (moves_settled h hw hready : Book.Moves _ .tick _ _).keeps
          (fun _ _ h hm ↦ h.move hm) hkeyed
      · rw [← map_id_clear]
        exact htallied'.nodup
    · rw [if_neg hex]
      rfl

/-! ## Every command

A reservation is not announced, so a take that is queued or a limit that rests is told by its own
answer alone. The closing of an elapsed window comes before the handler, and is told like any other
flush. -/

/-- What a state between commands satisfies. -/
structure Sound (s : AuctionState) : Prop where
  priced : s.Priced
  keyed : s.book.Keyed
  tallied : s.Tallied

theorem sound_new (config : AuctionConfig) : (new config).Sound :=
  ⟨priced_new config, Book.keyed_empty, tallied_new config⟩

theorem account_reserve (s : AuctionState) (p : ParticipantId) (price : Price) (qty : Qty) :
    (s.reserve p price qty).1.account = s.account := by
  have hceilings := s.ceilings_reserve p price qty
  obtain ⟨c, hc⟩ := s.reserve_frame p price qty
  rw [hc] at hceilings ⊢
  unfold account
  rw [hceilings]

theorem told_onCancel (h : s.book.Keyed) (hopen : s.status.isTerminal = false) :
    s.onCancel.2.foldl Account.record s.account = s.onCancel.1.account := by
  rw [← s.holding_cancelled] at h
  have hkeyed := (moves_forEach (f := turnAwayPending .notLive) PendingBid.live _
    (fun b _ s bids ↦ move_turnAway .notLive b.live) _ : Book.Moves 0 .tick _ _).keeps
      (fun _ _ h hm ↦ h.move hm) h
  have hloop := told_turnAway_loop s.status s.clearingPrice s.supplyRemaining
    (by decide : RejectReason.notLive ≠ .unknownBid) PendingBid.live
    (fun b u ↦ (rfl : u.turnAwayPending .notLive b = _)) h
  have hdrain := told_drainLadder s.status s.clearingPrice s.supplyRemaining
    (by decide : RejectReason.notLive ≠ .unknownBid) hkeyed
  have hbare := bare_onCancel hopen
  have hstatus := congrArg AuctionState.status hbare
  have hprice := congrArg AuctionState.clearingPrice hbare
  have hsupply := congrArg AuctionState.supplyRemaining hbare
  have hself := s.onCancel.1.showing_self
  rw [show s.onCancel.1.status = .cancelled from hstatus,
    show s.onCancel.1.clearingPrice = s.clearingPrice from hprice,
    show s.onCancel.1.supplyRemaining = s.supplyRemaining from hsupply] at hself
  have hstart : s.account = { s with status := .cancelled, window := none }.showing s.status
      s.clearingPrice s.supplyRemaining [] := s.showing_self.symm
  rw [onCancel, if_neg (by rw [hopen]; exact Bool.false_ne_true)] at hself ⊢
  rw [Emit.andThen_snd, Emit.andThen_snd, List.foldl_append, List.foldl_append, hstart, hloop,
    hdrain]
  exact hself

/-- **Every phase is announced.** -/
theorem Sound.told {cmd : Command} {r : AuctionState × List Event} (h : s.Sound)
    (hphase : s.Phase cmd r) : r.2.foldl Account.record s.account = r.1.account := by
  obtain ⟨hpriced, hkeyed, htallied⟩ := h
  cases hphase with
  | duplicate => rfl
  | unknown => rfl
  | refuse key reason hkey hreason => exact told_reject hreason.2 (Or.inl hkey)
  | uncovered participant key price qty hkey hres =>
    have hkey' : (s.reserve participant price qty).1.Answerable key := by
      obtain ⟨c, hc⟩ := s.reserve_frame participant price qty
      rw [hc]
      exact Or.inl hkey
    rw [← s.account_reserve participant price qty]
    exact told_reject (by decide) hkey'
  | queue seq participant key qty expected hcmd hkey hqty _ hres =>
    have hkey' : (s.reserve participant (s.config.windowBounds s.now).2 qty).1.Answerable key := by
      obtain ⟨c, hc⟩ := s.reserve_frame participant (s.config.windowBounds s.now).2 qty
      rw [hc]
      exact Or.inl hkey
    have hnote := account_setOutcome hkey' (.queued qty)
    rw [account_reserve] at hnote
    exact hnote.symm
  | rest seq participant key qty limit hcmd hkey hqty _ _ hres =>
    have hkey' : (s.reserve participant limit qty).1.Answerable key := by
      obtain ⟨c, hc⟩ := s.reserve_frame participant limit qty
      rw [hc]
      exact Or.inl hkey
    have hnote := account_setOutcome hkey' (.resting qty)
    rw [account_reserve] at hnote
    exact hnote.symm
  | withdraw participant key bid hbid =>
    obtain ⟨hkey, -, hperm⟩ := PriceLadder.remove_eq_some hbid
    have hlive : bid.live ∈ s.book.live :=
      Multiset.mem_add.mpr (Or.inr (Multiset.mem_coe.mpr (List.mem_map_of_mem
        (hperm.mem_iff.mpr List.mem_cons_self))))
    have hkey' : s.Answerable key := hkey ▸ Or.inr ⟨bid.qty, (hkeyed.of_live hlive).2.2⟩
    have hnote := account_setOutcome hkey' .cancelled
    have hceilings := ceilings_release s.collateral participant bid.limit bid.qty
    show s.account.note key .cancelled = _
    rw [← hnote]
    unfold AuctionState.withdraw setOutcome account
    dsimp only
    rw [hceilings]
  | fund participant limit hcmd =>
    unfold onSetCollateral account
    rw [ceilings_update]
    rfl
  | «open» hpending =>
    rw [onOpen, if_pos hpending]
    rfl
  | trigger =>
    rw [triggerResting_eq]
    rfl
  | flush hlive hwhen =>
    exact told_flushWindow hpriced hkeyed htallied fun w hw _ ↦ hpriced.ripe hw hlive hwhen
  | floor hlive =>
    refine told_clear hkeyed htallied.nodup fun f hf ↦ ?_
    have hreached := hpriced.fills f hf
    rw [reached_eq_priceAt hpriced hlive] at hreached
    exact (AuctionConfig.floor_le_priceAt s.now).trans hreached
  | cancel hopen => exact told_onCancel hkeyed hopen

theorem Sound.phase {cmd : Command} {r : AuctionState × List Event} (h : s.Sound)
    (hphase : s.Phase cmd r) : r.1.Sound :=
  ⟨h.priced.phase hphase,
    (hphase.moves h.priced).keeps (fun _ _ hB hmove ↦ hB.move hmove) h.keyed,
    h.tallied.phase hphase⟩

theorem Sound.close (h : s.Sound) (seq : Seq) (ts : Nanos) :
    (((s.stamp seq ts).closeElapsedWindow (s.stamp seq ts).now).1).Sound ∧
      ((s.stamp seq ts).closeElapsedWindow (s.stamp seq ts).now).2.foldl Account.record s.account =
        ((s.stamp seq ts).closeElapsedWindow (s.stamp seq ts).now).1.account := by
  have hbefore := h.priced.stamp seq ts
  have hkeyed : (s.stamp seq ts).book.Keyed := h.keyed
  have htallied : (s.stamp seq ts).Tallied := h.tallied
  have haccount : s.account = (s.stamp seq ts).account := rfl
  rw [haccount]
  generalize s.stamp seq ts = u at hbefore hkeyed htallied ⊢
  have hkeyed' : (u.closeElapsedWindow u.now).1.book.Keyed :=
    (hbefore.moves : Book.Moves _ .tick _ _).keeps (fun _ _ hB hmove ↦ hB.move hmove) hkeyed
  refine ⟨⟨hbefore.close, hkeyed', ?_⟩, ?_⟩
  · rcases u.closeElapsedWindow_cases u.now with ⟨heq, -⟩ | ⟨w, hw, helapsed, heq⟩
    · rwa [heq]
    · rw [heq]
      exact htallied.flushWindow
  · obtain ⟨t, -, hpriced⟩ := hbefore
    rcases u.closeElapsedWindow_cases u.now with ⟨heq, -⟩ | ⟨w, hw, helapsed, heq⟩
    · rw [heq]
      rfl
    · rw [heq]
      refine told_flushWindow hpriced hkeyed htallied fun w' hw' hlive ↦ ?_
      rw [hw] at hw'
      cases hw'
      exact hpriced.ripe_of_elapsed hw hlive helapsed

/-- **Every command is announced**: folding its events into the account of the state before gives
the account of the state after. -/
theorem Sound.step {r : LogRecord} {s' : AuctionState} {o : List Event} (h : s.Sound)
    (hstep : s.step r = some (s', o)) :
    s'.Sound ∧ o.foldl Account.record s.account = s'.account := by
  obtain ⟨-, hadvance⟩ := step_eq_some hstep
  obtain ⟨t, hsteps, heq⟩ := s.advance_eq r.seq r.ts r.cmd
  obtain ⟨hclosed, hclose⟩ := h.close r.seq r.ts
  obtain ⟨hsound, htold⟩ := hsteps.rel (P := Sound)
    (M := fun u v ↦ v.2.foldl Account.record u.account = v.1.account) (fun _ ↦ rfl)
    (fun u v v' hv hv' ↦ by rw [List.foldl_append, hv, hv'])
    (fun u v hu hv ↦ ⟨hu.phase hv, hu.told hv⟩) hclosed
  rw [hadvance] at heq
  cases heq
  rw [List.foldl_append, hclose]
  exact ⟨hsound, htold⟩

end AuctionState

/-- **The event stream is a complete account of the auction**: folding everything a run announced
gives the status, the clearing price, the supply left, the fills, the ceilings and the record of the
state it reached. -/
theorem events_account {config : AuctionConfig} {tr : List Transition} {s : AuctionState}
    (hrun : Run config tr s) :
    (tr.flatMap fun t ↦ t.out).foldl Account.record (Account.start config) = s.account := by
  have h : s.Sound ∧ (tr.flatMap fun t ↦ t.out).foldl Account.record (Account.start config) =
      s.account := by
    induction hrun with
    | nil => exact ⟨AuctionState.sound_new config, rfl⟩
    | snoc _ hstep ih =>
      obtain ⟨hsound, haccount⟩ := ih.1.step hstep
      refine ⟨hsound, ?_⟩
      rw [List.flatMap_append, List.foldl_append, ih.2, List.flatMap_singleton]
      exact haccount
  exact h.2

/-- Ten units sold at 900, told by the events alone. -/
theorem events_account_sample :
    (((play (.sample 0) sampleRecords).1.flatMap fun t ↦ t.out).foldl Account.record
        (Account.start (.sample 0))).fills = (play (.sample 0) sampleRecords).2.fills ∧
      (play (.sample 0) sampleRecords).2.fills.length = 2 :=
  ⟨congrArg Account.fills (events_account (run_play (.sample 0) sampleRecords)), by decide⟩

end DutchAuction
