import DutchAuction.Core.Final
import DutchAuction.Core.Hidden
import DutchAuction.Core.Lockstep

/-!
# Resting bids are sealed, but for their key

Two runs differ in the quantity and the limit of one resting bid. As long as neither has triggered
it and the auction is live, what the bid has left behind is in three places: a queue of the ladder,
the account of its owner, and the record under its key. `Sealed` says that the two states agree but
for these.

A command of somebody else reads neither the queue, which it would have to drain or withdraw from,
nor the account. The record it reads if it carries the key, and the answer quotes the quantity. So
the two runs answer alike if nobody carries the key, or the quantities are the same (`sealed_iff`);
the limit never shows. -/

namespace DutchAuction

/-- Who submits or withdraws a bid with this command. -/
def Command.bidder? : Command → Option ParticipantId
  | .submitBid participant _ _ _ => some participant
  | .cancelResting participant _ => some participant
  | _ => none

namespace AuctionState

/-- The auction is live and the bid still waits on the ladder. -/
structure Untriggered (x : LiveBid) (s : AuctionState) : Prop where
  live : s.status = .live
  rests : x ∈ s.resting.bids.map RestingBid.live

/-- Two live states that agree but for one resting bid: `x` on one side and `y`, of the same
participant under the same key, on the other. -/
structure Sealed (x y : LiveBid) (s t : AuctionState) : Prop where
  config : t.config = s.config
  live : s.status = .live
  live' : t.status = .live
  supplyRemaining : t.supplyRemaining = s.supplyRemaining
  nextFillId : t.nextFillId = s.nextFillId
  window : t.window = s.window
  now : t.now = s.now
  ladder : t.resting.without x.key = s.resting.without x.key
  accounts : ∀ p ≠ x.participant, t.collateral p = s.collateral p
  outcomes : ∀ k ≠ x.key, t.outcomes k = s.outcomes k
  own : s.outcomes x.key = some (.resting x.qty)
  own' : t.outcomes x.key = some (.resting y.qty)
  apart : ∀ w, s.window = some w → ∀ b ∈ w.bids, b.key ≠ x.key

/-- Two results that agree but for the bid, and announce the same. -/
def Same (x y : LiveBid) (r r' : AuctionState × List Event) : Prop :=
  r'.2 = r.2 ∧ Sealed x y r.1 r'.1

theorem Same.andThen {x y : LiveBid} {f g : AuctionState → AuctionState × List Event}
    {s t : AuctionState} (hf : Same x y (f s) (f t)) (hg : Same x y (g (f s).1) (g (f t).1)) :
    Same x y (Emit.andThen f g s) (Emit.andThen f g t) := by
  refine ⟨?_, hg.2⟩
  rw [Emit.andThen_snd, Emit.andThen_snd, hf.1, hg.1]

namespace Sealed

variable {x y : LiveBid} {s t : AuctionState}

/-! ## The small moves

Two states are sealed for a key if they differ only in the bid that rests under it, in what its
owner has reserved, and in its record. What is done to anybody else's account is done on both sides
alike. -/

theorem setOutcome (h : Sealed x y s t) {key : IdempotencyKey} (hkey : key ≠ x.key)
    (outcome : Outcome) : Sealed x y (s.setOutcome key outcome) (t.setOutcome key outcome) :=
  { h with
    outcomes := fun k hk ↦ by
      unfold AuctionState.setOutcome
      dsimp only
      by_cases heq : k = key
      · rw [heq, Function.update_self, Function.update_self, h.outcomes key hkey]
      · rw [Function.update_of_ne heq, Function.update_of_ne heq, h.outcomes k hk]
    own := (Function.update_of_ne hkey.symm _ _).trans h.own
    own' := (Function.update_of_ne hkey.symm _ _).trans h.own' }

theorem account (h : Sealed x y s t) (p : ParticipantId)
    (F : Option Collateral → Option Collateral) :
    Sealed x y { s with collateral := Function.update s.collateral p (F (s.collateral p)) }
      { t with collateral := Function.update t.collateral p (F (t.collateral p)) } :=
  { h with
    accounts := fun p' hp' ↦ by
      dsimp only
      by_cases heq : p' = p
      · rw [heq, Function.update_self, Function.update_self, h.accounts p (heq ▸ hp')]
      · rw [Function.update_of_ne heq, Function.update_of_ne heq, h.accounts p' hp'] }

theorem release (h : Sealed x y s t) (p : ParticipantId) (price : Price) (qty : Qty) :
    Sealed x y { s with collateral := DutchAuction.release s.collateral p price qty }
      { t with collateral := DutchAuction.release t.collateral p price qty } :=
  h.account p fun c ↦ some { c.getD default with
    committed := (c.getD default).committed.saturatingSub ((Price.checkedMulQty price qty).getD 0) }

theorem commit (h : Sealed x y s t) (p : ParticipantId) (price : Price) (qty : Qty) :
    Sealed x y { s with collateral := DutchAuction.commit s.collateral p price qty }
      { t with collateral := DutchAuction.commit t.collateral p price qty } :=
  h.account p fun c ↦ some { c.getD default with
    committed := (c.getD default).committed.saturatingAdd
      ((Price.checkedMulQty price qty).getD I64.maxValue) }

theorem reject (h : Sealed x y s t) {key : IdempotencyKey} (hkey : key ≠ x.key)
    (reason : RejectReason) : Same x y (s.reject key reason) (t.reject key reason) :=
  ⟨rfl, h.setOutcome hkey (.rejected reason)⟩

theorem reserve (h : Sealed x y s t) {p : ParticipantId} (hp : p ≠ x.participant) (price : Price)
    (qty : Qty) :
    (t.reserve p price qty).2 = (s.reserve p price qty).2 ∧
      Sealed x y (s.reserve p price qty).1 (t.reserve p price qty).1 := by
  have hc : t.collateralOf p = s.collateralOf p := by
    unfold collateralOf
    rw [h.accounts p hp]
  unfold AuctionState.reserve
  cases Price.checkedMulQty price qty with
  | none => exact ⟨rfl, h⟩
  | some cost =>
    simp only [hc]
    split_ifs
    · exact ⟨rfl, h.account p fun _ ↦ some (s.collateralOf p)⟩
    · exact ⟨rfl, h.account p fun _ ↦ some { s.collateralOf p with
        committed := (s.collateralOf p).committed.saturatingAdd cost }⟩

/-! ## Windows -/

theorem pushPending (h : Sealed x y s t) (index : U64) (price : Price) {b : PendingBid}
    (hb : b.key ≠ x.key) :
    Sealed x y (s.pushPending index price b) (t.pushPending index price b) := by
  unfold AuctionState.pushPending
  dsimp only
  rw [h.window]
  refine { h with window := rfl, apart := fun w hw c hc ↦ ?_ }
  cases hw
  rcases List.mem_append.mp hc with hc | hc
  · cases hwindow : s.window with
    | none =>
      rw [hwindow] at hc
      exact absurd hc List.not_mem_nil
    | some w =>
      rw [hwindow] at hc
      exact h.apart w hwindow c hc
  · rw [List.mem_singleton.mp hc]
    exact hb

theorem requeueRemainder (h : Sealed x y s t) (exhausted : Bool) {b : PendingBid}
    (hb : b.key ≠ x.key) (alloc : Qty) :
    Sealed x y (s.requeueRemainder exhausted b alloc) (t.requeueRemainder exhausted b alloc) := by
  unfold AuctionState.requeueRemainder
  dsimp only
  cases b.restingLimit with
  | none => exact h
  | some limit =>
    cases Qty.isZero (b.qty.saturatingSub alloc) || exhausted with
    | true => exact h
    | false =>
      exact { h.commit b.participant limit (b.qty.saturatingSub alloc) with
        ladder := PriceLadder.without_requeue hb h.ladder }

theorem addFill (h : Sealed x y s t) (l l' : List Fill) :
    Sealed x y { s with nextFillId := s.nextFillId + 1, fills := l }
      { t with nextFillId := t.nextFillId + 1, fills := l' } :=
  { h with nextFillId := congrArg (· + 1) h.nextFillId }

theorem settle (h : Sealed x y s t) (price : Price) (exhausted : Bool) {ba : PendingBid × ℕ}
    (hb : ba.1.key ≠ x.key) :
    Same x y (s.settle price exhausted ba) (t.settle price exhausted ba) := by
  have hreleased := h.release ba.1.participant ba.1.reservePrice ba.1.qty
  unfold AuctionState.settle
  dsimp only
  split_ifs
  · exact hreleased.reject hb .supplyExhausted
  · have hcommitted := hreleased.commit ba.1.participant price (U64.saturate ba.2)
    refine ⟨by rw [h.nextFillId], Sealed.requeueRemainder ?_ exhausted hb _⟩
    exact (hcommitted.addFill _ _).setOutcome hb _

theorem matchWindow (h : Sealed x y s t) (price : Price) {bids : List PendingBid}
    (hbids : ∀ b ∈ bids, b.key ≠ x.key) (hlive : (s.matchWindow price bids).1.status = .live) :
    Same x y (s.matchWindow price bids) (t.matchWindow price bids) := by
  unfold AuctionState.matchWindow at hlive ⊢
  dsimp only at hlive ⊢
  rw [h.supplyRemaining]
  generalize matchLevels (priceLevels (byPriority bids)) s.supplyRemaining false = m at hlive ⊢
  have hloop : Same x y
      (Emit.forEach (AuctionState.settle price m.2.2) ((byPriority bids).zip m.1)
        { s with supplyRemaining := m.2.1 })
      (Emit.forEach (AuctionState.settle price m.2.2) ((byPriority bids).zip m.1)
        { t with supplyRemaining := m.2.1 }) := by
    refine Emit.forEach_same (fun ba hba u v huv ↦ huv.settle price _ (hbids ba.1 ?_))
      { h with supplyRemaining := rfl }
    exact (byPriority_perm bids).mem_iff.mp (List.of_mem_zip hba).1
  cases hexhausted : m.2.2 with
  | true =>
    rw [hexhausted, Emit.andThen_fst, if_pos rfl, status_clear] at hlive
    cases hlive
  | false =>
    rw [hexhausted] at hloop
    exact hloop.andThen ⟨rfl, hloop.2⟩

theorem flushWindow (h : Sealed x y s t) (hlive : s.flushWindow.1.status = .live) :
    Same x y s.flushWindow t.flushWindow := by
  unfold AuctionState.flushWindow at hlive ⊢
  rw [h.window]
  cases hw : s.window with
  | none => exact ⟨rfl, h⟩
  | some w =>
    have hclosed : Sealed x y { s with window := none } { t with window := none } :=
      { h with
        window := rfl
        apart := fun w hw ↦ absurd hw.symm (Option.some_ne_none w) }
    rw [hw] at hlive
    dsimp only at hlive ⊢
    rw [if_pos (Status.acceptsBids_iff.mpr h.live)] at hlive
    rw [if_pos (Status.acceptsBids_iff.mpr h.live), if_pos (Status.acceptsBids_iff.mpr h.live')]
    exact hclosed.matchWindow w.price (h.apart w hw) hlive

theorem closeElapsedWindow (h : Sealed x y s t) (ts : Nanos)
    (hlive : (s.closeElapsedWindow ts).1.status = .live) :
    Same x y (s.closeElapsedWindow ts) (t.closeElapsedWindow ts) := by
  unfold AuctionState.closeElapsedWindow at hlive ⊢
  rw [h.window]
  cases hw : s.window with
  | none => exact ⟨rfl, h⟩
  | some w =>
    rw [hw] at hlive
    dsimp only at hlive ⊢
    rw [h.config]
    split_ifs at hlive ⊢
    · exact h.flushWindow hlive
    · exact ⟨rfl, h⟩

/-! ## Handlers -/

theorem onSetCollateral (h : Sealed x y s t) (p : ParticipantId) (limit : I64) :
    Same x y (s.onSetCollateral p limit) (t.onSetCollateral p limit) :=
  ⟨rfl, h.account p fun c ↦ some { c.getD default with limit := limit }⟩

theorem onTake (h : Sealed x y s t) {p : ParticipantId} (hp : p ≠ x.participant) {seq : Seq}
    {ts : Nanos} {key : IdempotencyKey} (hkey : key ≠ x.key) {qty : Qty} {expected : Price}
    (hlive : (s.onTake seq ts p key qty expected).1.status = .live) :
    Same x y (s.onTake seq ts p key qty expected) (t.onTake seq ts p key qty expected) := by
  unfold AuctionState.onTake at hlive ⊢
  rw [h.config]
  dsimp only at hlive ⊢
  split_ifs at hlive ⊢ with hmoved
  · exact h.reject hkey _
  obtain ⟨hres, hreserved⟩ := h.reserve hp (s.config.windowBounds ts).2 qty
  generalize s.reserve p (s.config.windowBounds ts).2 qty = r at hres hreserved hlive ⊢
  generalize t.reserve p (s.config.windowBounds ts).2 qty = r' at hres hreserved ⊢
  obtain ⟨u, covered⟩ := r
  obtain ⟨u', covered'⟩ := r'
  obtain rfl : covered' = covered := hres
  cases covered' with
  | false => exact hreserved.reject hkey _
  | true =>
    have hqueued := (hreserved.pushPending (s.config.windowBounds ts).1 (s.config.windowBounds ts).2
      (b := ⟨seq, p, key, qty, (s.config.windowBounds ts).2, (s.config.windowBounds ts).2, none⟩)
      hkey).setOutcome hkey (.queued qty)
    have hconfig : ((u'.pushPending (s.config.windowBounds ts).1 (s.config.windowBounds ts).2
        ⟨seq, p, key, qty, (s.config.windowBounds ts).2, (s.config.windowBounds ts).2,
          none⟩).setOutcome key (.queued qty)).config = _ := hqueued.config
    dsimp only at hlive ⊢
    rw [hconfig]
    refine Same.andThen ⟨rfl, hqueued⟩ ?_
    rw [Emit.andThen_fst] at hlive
    split_ifs at hlive ⊢
    · exact hqueued.flushWindow hlive
    · exact ⟨rfl, hqueued⟩

theorem onRest (h : Sealed x y s t) {p : ParticipantId} (hp : p ≠ x.participant) (seq : Seq)
    (ts : Nanos) {key : IdempotencyKey} (hkey : key ≠ x.key) (qty : Qty) (limit : Price) :
    Same x y (s.onRest seq ts p key qty limit) (t.onRest seq ts p key qty limit) := by
  unfold AuctionState.onRest
  rw [h.config]
  dsimp only
  split_ifs with habove
  · exact h.reject hkey _
  obtain ⟨hres, hreserved⟩ := h.reserve hp limit qty
  generalize s.reserve p limit qty = r at hres hreserved ⊢
  generalize t.reserve p limit qty = r' at hres hreserved ⊢
  obtain ⟨u, covered⟩ := r
  obtain ⟨u', covered'⟩ := r'
  obtain rfl : covered' = covered := hres
  cases covered' with
  | false => exact hreserved.reject hkey _
  | true =>
    refine ⟨rfl, Sealed.setOutcome ?_ hkey _⟩
    exact { hreserved with
      ladder := PriceLadder.without_insert (b := ⟨seq, p, key, qty, limit⟩) hkey hreserved.ladder }

theorem onBid (h : Sealed x y s t) {p : ParticipantId} (hp : p ≠ x.participant) {seq : Seq}
    {ts : Nanos} {key : IdempotencyKey} (hkey : key ≠ x.key) {qty : Qty} {kind : BidKind}
    (hlive : (s.onBid seq ts p key qty kind).1.status = .live) :
    Same x y (s.onBid seq ts p key qty kind) (t.onBid seq ts p key qty kind) := by
  have haccepts : t.status.acceptsBids = s.status.acceptsBids := by rw [h.live, h.live']
  unfold AuctionState.onBid at hlive ⊢
  rw [h.outcomes key hkey, haccepts]
  cases houtcome : s.outcomes key with
  | some outcome => exact ⟨rfl, h⟩
  | none =>
    rw [houtcome] at hlive
    dsimp only at hlive ⊢
    split_ifs at hlive ⊢
    · exact h.reject hkey _
    · exact h.reject hkey _
    · cases kind with
      | take expected => exact h.onTake hp hkey hlive
      | resting limit => exact h.onRest hp seq ts hkey qty limit

theorem onCancelResting (h : Sealed x y s t) (p : ParticipantId) {key : IdempotencyKey}
    (hkey : key ≠ x.key) : Same x y (s.onCancelResting p key) (t.onCancelResting p key) := by
  have hs := PriceLadder.remove_without (l := s.resting) (p := p) hkey
  have ht := PriceLadder.remove_without (l := t.resting) (p := p) hkey
  rw [h.ladder, ← hs] at ht
  obtain ⟨hfound, hladder⟩ := Prod.ext_iff.mp ht
  unfold AuctionState.onCancelResting
  generalize s.resting.remove p key = r at hfound hladder ⊢
  generalize t.resting.remove p key = r' at hfound hladder ⊢
  obtain ⟨found, resting⟩ := r
  obtain ⟨found', resting'⟩ := r'
  obtain rfl : found' = found := hfound
  cases found' with
  | some bid =>
    refine ⟨rfl, Sealed.setOutcome ?_ hkey .cancelled⟩
    exact { h.release p bid.limit bid.qty with ladder := hladder }
  | none =>
    dsimp only
    rw [h.outcomes key hkey]
    cases s.outcomes key with
    | some outcome => exact ⟨rfl, h⟩
    | none => exact ⟨rfl, h⟩

private theorem pushTriggered_foldl (h : Sealed x y s t) (index : U64) (price : Price)
    {bids : List RestingBid} (hbids : ∀ b ∈ bids, b.key ≠ x.key) :
    Sealed x y (bids.foldl (AuctionState.pushTriggered index price) s)
      (bids.foldl (AuctionState.pushTriggered index price) t) := by
  induction bids generalizing s t with
  | nil => exact h
  | cons b bids ih =>
    exact ih (h.pushPending index price (b := b.toPending) (hbids b List.mem_cons_self))
      fun c hc ↦ hbids c (List.mem_cons_of_mem _ hc)

theorem triggerResting (h : Sealed x y s t) (hs : s.resting.Filed) (ht : t.resting.Filed)
    (ts : Nanos) (hx : ∀ b ∈ s.resting.bids, b.key = x.key → b.limit < s.config.priceAt ts)
    (hy : ∀ b ∈ t.resting.bids, b.key = x.key → b.limit < s.config.priceAt ts) :
    Sealed x y (s.triggerResting ts) (t.triggerResting ts) := by
  obtain ⟨hdrained, hleft⟩ := PriceLadder.drainTriggered_without hs hx
  obtain ⟨hdrained', hleft'⟩ := PriceLadder.drainTriggered_without ht hy
  unfold AuctionState.triggerResting
  rw [h.config]
  dsimp only
  rw [hdrained', h.ladder, ← hdrained]
  refine Sealed.pushTriggered_foldl ?_ _ _ fun b hb heq ↦ ?_
  · exact { h with
      config := rfl
      ladder := by
        dsimp only
        rw [hleft', h.ladder, ← hleft] }
  · obtain ⟨hmem, hreached⟩ := PriceLadder.mem_drainTriggered hs hb
    exact absurd (hx b hmem heq) (not_lt.mpr hreached)

theorem onTick (h : Sealed x y s t) (hs : s.resting.Filed) (ht : t.resting.Filed) {ts : Nanos}
    (hx : ∀ b ∈ s.resting.bids, b.key = x.key → b.limit < s.config.priceAt ts)
    (hy : ∀ b ∈ t.resting.bids, b.key = x.key → b.limit < s.config.priceAt ts)
    (hlive : (s.onTick ts).1.status = .live) : Same x y (s.onTick ts) (t.onTick ts) := by
  have htriggered := h.triggerResting hs ht ts hx hy
  have haccepts : ¬(!s.status.acceptsBids) = true := by rw [h.live]; decide
  have haccepts' : ¬(!t.status.acceptsBids) = true := by rw [h.live']; decide
  -- What comes after the flush is nothing, since settling at the floor ends the auction.
  have hfloor : ∀ {u u' : AuctionState}, Sealed x y u u' →
      (if u.status.acceptsBids && u.config.schedule.atFloor ts then u.settleAtFloor
        else (u, [])).1.status = .live →
      Same x y
        (if u.status.acceptsBids && u.config.schedule.atFloor ts then u.settleAtFloor else (u, []))
        (if u'.status.acceptsBids && u'.config.schedule.atFloor ts then u'.settleAtFloor
          else (u', [])) := by
    intro u u' hu hlive
    rw [hu.config, hu.live', ← hu.live]
    split_ifs at hlive ⊢
    · exact absurd hlive (settleAtFloor_status u)
    · exact ⟨rfl, hu⟩
  unfold AuctionState.onTick at hlive ⊢
  rw [if_neg haccepts, Emit.andThen_fst] at hlive
  rw [if_neg haccepts, if_neg haccepts', h.config]
  by_cases hbatch : s.config.batchWindow.val = 0
  · rw [if_pos hbatch] at hlive ⊢
    have hflushed : (s.triggerResting ts).flushWindow.1.status = .live := by
      split_ifs at hlive with hends
      · exact absurd hlive (settleAtFloor_status _)
      · exact hlive
    have hsame := htriggered.flushWindow hflushed
    exact hsame.andThen (hfloor hsame.2 hlive)
  · rw [if_neg hbatch] at hlive ⊢
    exact Same.andThen ⟨rfl, htriggered⟩ (hfloor htriggered hlive)

end Sealed

/-! ## One command

A command under the key that is not its owner's is answered with the record, which shows the
quantity and nothing else; any other command of somebody else does not come near the bid. -/

/-- The bid waits on the ladder of a state that a run can reach. -/
structure Waits (x : LiveBid) (s : AuctionState) : Prop where
  priced : s.Priced
  keyed : s.book.Keyed
  rests : x ∈ s.resting.bids.map RestingBid.live

variable {x y : LiveBid} {s s' t t' : AuctionState} {r : LogRecord} {o o' : List Event}

theorem Waits.live_of_key (h : Waits x s) {b : RestingBid} (hb : b ∈ s.resting.bids)
    (hkey : b.key = x.key) : b.live = x := by
  have hmem : ∀ c ∈ s.resting.bids.map RestingBid.live, c ∈ s.book.live := fun c hc ↦ by
    rw [live_book, liveBids]
    exact List.mem_append_right _ hc
  have hat : b.live ∈ s.book.liveAt x.key :=
    Book.mem_liveAt.mpr ⟨hmem _ (List.mem_map_of_mem hb), hkey⟩
  rw [(h.keyed.of_live (hmem x h.rests)).1] at hat
  exact Multiset.mem_singleton.mp hat

private theorem terminal_handle (hterm : s.status.isTerminal = true) (seq : Seq) (cmd : Command) :
    (handle seq s.now cmd s).1.status.isTerminal = true := by
  refine (handle_steps seq cmd s).keeps (P := fun u : AuctionState ↦ u.status.isTerminal = true)
    (fun u v hu hphase ↦ ?_) hterm
  rcases hphase.status_cases with hsame | ⟨hpending, -⟩ | ⟨hlive, -⟩ | ⟨-, hcancelled⟩
  · rw [hsame]
    exact hu
  · rw [hpending] at hu
    cases hu
  · rw [hlive] at hu
    cases hu
  · rw [hcancelled]
    rfl

theorem live_entry (hlive : s.status = .live) (hstep : s.step r = some (s', o))
    (hlive' : s'.status = .live) : (s.entry r).status = .live := by
  rcases (s.stamp r.seq r.ts).status_closeElapsedWindow (max r.ts s.now) with hsame | ⟨-, hcleared⟩
  · exact hsame.trans hlive
  · have hterm : (s.entry r).status.isTerminal = true := by
      rw [entry, hcleared]
      rfl
    have hover := terminal_handle hterm r.seq r.cmd
    rw [entry_now, ← step_entry hstep, hlive'] at hover
    cases hover

theorem Waits.entry (h : Waits x s) (hlive : (s.entry r).status = .live) : Waits x (s.entry r) := by
  have hbefore := h.priced.stamp r.seq r.ts
  have hmoves : Book.Moves _ .tick s.book (s.entry r).book := hbefore.moves
  refine ⟨hbefore.close, hmoves.keeps (fun _ _ hB hmove ↦ hB.move hmove) h.keyed, ?_⟩
  have hresting : (s.entry r).resting = s.resting := by
    unfold AuctionState.entry at hlive ⊢
    rcases (s.stamp r.seq r.ts).closeElapsedWindow_cases (max r.ts s.now) with
      ⟨heq, -⟩ | ⟨w, -, -, heq⟩
    · rw [heq]
      rfl
    · rw [heq] at hlive ⊢
      exact resting_flushWindow (by rw [hlive]; rfl)
  rw [hresting]
  exact h.rests

/-- **A command under the key is answered with the record**, if it is not its owner's. -/
theorem Waits.handle_own (h : Waits x s) {q : Qty} (hown : s.outcomes x.key = some (.resting q))
    {cmd : Command} (hby : x.participant ∉ cmd.bidder?) (hkey : x.key ∈ cmd.key?) (seq : Seq)
    (ts : Nanos) : handle seq ts cmd s = (s, [.duplicate x.key (.resting q)]) := by
  cases cmd with
  | «open» => cases hkey
  | setCollateral p limit => cases hkey
  | submitBid p key qty kind =>
    obtain rfl : key = x.key := Option.some.inj hkey
    show s.onBid seq ts p x.key qty kind = _
    unfold onBid
    rw [hown]
  | cancelResting p key =>
    obtain rfl : key = x.key := Option.some.inj hkey
    have hnone : (s.resting.remove p x.key).1 = none := by
      cases hremove : (s.resting.remove p x.key).1 with
      | none => rfl
      | some b =>
        obtain ⟨hkey, hparticipant, hperm⟩ := PriceLadder.remove_eq_some hremove
        have hlive := h.live_of_key (hperm.mem_iff.mpr List.mem_cons_self) hkey
        have hp : x.participant = p := by rw [← hlive, ← hparticipant]; rfl
        exact absurd (congrArg some hp.symm) hby
    show s.onCancelResting p x.key = _
    unfold onCancelResting
    rw [← Prod.eta (s.resting.remove p x.key), hnone]
    dsimp only
    rw [hown]
  | tick => cases hkey
  | cancel => cases hkey

/-- **Any other command of somebody else is answered alike** on both sides. -/
theorem Sealed.handle (h : Sealed x y s t) (hy : y.key = x.key) (hs : Waits x s) (ht : Waits y t)
    {seq : Seq} {cmd : Command} (hby : x.participant ∉ cmd.bidder?) (hkey : x.key ∉ cmd.key?)
    (hx' : Untriggered x (AuctionState.handle seq s.now cmd s).1)
    (hy' : Untriggered y (AuctionState.handle seq s.now cmd t).1) :
    Same x y (AuctionState.handle seq s.now cmd s) (AuctionState.handle seq s.now cmd t) := by
  cases cmd with
  | «open» =>
    show Same x y s.onOpen t.onOpen
    unfold onOpen
    rw [h.live, h.live']
    exact ⟨rfl, h⟩
  | setCollateral p limit => exact h.onSetCollateral p limit
  | submitBid p key qty kind =>
    have hp : p ≠ x.participant := fun heq ↦ hby (congrArg some heq)
    have hne : key ≠ x.key := fun heq ↦ hkey (congrArg some heq)
    exact h.onBid hp hne hx'.live
  | cancelResting p key =>
    have hne : key ≠ x.key := fun heq ↦ hkey (congrArg some heq)
    exact h.onCancelResting p hne
  | tick =>
    -- The bid is still there after the tick, so the clock has not reached its limit.
    have hlate : ∀ {z : LiveBid} {u : AuctionState}, Waits z u →
        Untriggered z (u.onTick u.now).1 →
        ∀ b ∈ u.resting.bids, b.key = z.key → b.limit < u.config.priceAt u.now := by
      intro z u hz hz' b hb hbz
      obtain ⟨c, hc, hcz⟩ := List.mem_map.mp hz'.rests
      have hlimit := (onTick_quiet hz.priced hz'.live).1 c hc
      have heq : b.limit = c.limit :=
        congrArg LiveBid.price ((hz.live_of_key hb hbz).trans hcz.symm)
      rw [heq]
      exact hlimit
    have hty := hlate ht (by rw [h.now]; exact hy')
    rw [h.now, h.config, hy] at hty
    exact h.onTick hs.priced.filed ht.priced.filed (hlate hs hx') hty hx'.live
  | cancel =>
    have hcancelled := congrArg AuctionState.status (bare_onCancel (s := s) (by rw [h.live]; rfl))
    have hcancelled : (AuctionState.handle seq s.now .cancel s).1.status = .cancelled := hcancelled
    have hlive := hx'.live
    rw [hcancelled] at hlive
    cases hlive

/-- **One command on both sides.** The two stay sealed, and answer alike exactly when the command
does not carry the key or the quantities are the same. -/
theorem Sealed.step (h : Sealed x y s t) (hy : y.key = x.key) (hp : y.participant = x.participant)
    (hs : Waits x s) (ht : Waits y t) (hby : x.participant ∉ r.cmd.bidder?)
    (hstep : s.step r = some (s', o)) (hstep' : t.step r = some (t', o'))
    (hx' : Untriggered x s') (hy' : Untriggered y t') :
    (Sealed x y s' t' ∧ Waits x s' ∧ Waits y t') ∧
      (o = o' ↔ x.qty = y.qty ∨ x.key ∉ r.cmd.key?) := by
  have hlive := live_entry h.live hstep hx'.live
  have hlive' := live_entry h.live' hstep' hy'.live
  have hnow : (t.stamp r.seq r.ts).now = (s.stamp r.seq r.ts).now := congrArg (max r.ts) h.now
  have hstamped : Sealed x y (s.stamp r.seq r.ts) (t.stamp r.seq r.ts) := { h with now := hnow }
  have hclosed : Same x y _ _ := hstamped.closeElapsedWindow (max r.ts s.now) hlive
  have hentry : Sealed x y (s.entry r) (t.entry r) := by
    unfold AuctionState.entry
    rw [h.now]
    exact hclosed.2
  have hs' := hs.entry hlive
  have ht' := ht.entry hlive'
  have hevents : o = o' ↔ s.answer r = t.answer r := by
    rw [step_events hstep, step_events hstep', h.now, hclosed.1]
    exact List.append_cancel_left_eq _ _ _ |>.to_iff
  have hpost := step_entry hstep
  have hpost' := step_entry hstep'
  have hwaits : Waits x s' ∧ Waits y t' :=
    ⟨⟨hs.priced.step hstep,
      (hs.priced.moves hstep).keeps (fun _ _ hB hmove ↦ hB.move hmove) hs.keyed, hx'.rests⟩,
      ht.priced.step hstep',
      (ht.priced.moves hstep').keeps (fun _ _ hB hmove ↦ hB.move hmove) ht.keyed, hy'.rests⟩
  have hanswer : s.answer r = (AuctionState.handle r.seq (max r.ts s.now) r.cmd (s.entry r)).2 :=
    rfl
  have hanswer' : t.answer r = (AuctionState.handle r.seq (max r.ts t.now) r.cmd (t.entry r)).2 :=
    rfl
  by_cases hkey : x.key ∈ r.cmd.key?
  · have hown := hs'.handle_own hentry.own hby hkey r.seq (max r.ts s.now)
    have hown' :=
      ht'.handle_own (q := y.qty) (by rw [hy]; exact hentry.own') (by rw [hp]; exact hby)
      (by rw [hy]; exact hkey) r.seq (max r.ts t.now)
    rw [hown] at hpost hanswer
    rw [hown'] at hpost' hanswer'
    refine ⟨⟨?_, hwaits⟩, ?_⟩
    · rw [hpost, hpost']
      exact hentry
    · rw [hevents, hanswer, hanswer', hy]
      simp [hkey]
  · have hnow := s.entry_now r
    rw [hpost] at hx'
    rw [hpost', h.now] at hy'
    rw [← hnow] at hx' hy' hpost hanswer
    rw [h.now, ← hnow] at hpost' hanswer'
    have hsame := hentry.handle hy hs' ht' hby hkey hx' hy'
    refine ⟨⟨?_, hwaits⟩, ?_⟩
    · rw [hpost, hpost']
      exact hsame.2
    · rw [hevents, hanswer, hanswer', hsame.1]
      simp [hkey]

/-! ## The command that rests the bid -/

theorem collateral_reserve_of_ne (s : AuctionState) {participant p : ParticipantId}
    (hp : p ≠ participant) (price : Price) (qty : Qty) :
    (s.reserve participant price qty).1.collateral p = s.collateral p := by
  rcases s.reserve_cases participant price qty with ⟨-, h | h⟩ | ⟨cost, -, -, h⟩
  · rw [h]
  · rw [h]
    exact Function.update_of_ne hp _ _
  · rw [h]
    exact Function.update_of_ne hp _ _

theorem onBid_rested {seq : Seq} {ts : Nanos} {p q : ParticipantId} {key k : IdempotencyKey}
    {qty n : Qty} {limit a : Price}
    (h : .rested k q n a ∈ (s.onBid seq ts p key qty (.resting limit)).2) :
    s.outcomes key = none ∧ s.status = .live ∧
      s.onBid seq ts p key qty (.resting limit) = s.shelve seq p key qty limit := by
  unfold onBid at h ⊢
  cases hkey : s.outcomes key with
  | some outcome =>
    rw [hkey] at h
    cases List.mem_singleton.mp h
  | none =>
    rw [hkey] at h
    dsimp only at h ⊢
    split_ifs at h ⊢ with hzero hlive
    · cases List.mem_singleton.mp h
    · cases List.mem_singleton.mp h
    refine ⟨rfl, by simpa using hlive, ?_⟩
    rcases lt_or_ge (s.config.priceAt ts) limit with habove | hlimit
    · rw [onRest_above seq p key qty habove] at h
      cases List.mem_singleton.mp h
    cases hres : (s.reserve p limit qty).2 with
    | false =>
      rw [onRest_uncovered seq key hlimit hres] at h
      cases List.mem_singleton.mp h
    | true => exact onRest_rested seq key hlimit hres

/-- **The same bid at another quantity and limit.** Resting it leaves two states sealed. -/
theorem sealed_shelve (hkeyed : s.book.Keyed) {key : IdempotencyKey} (hkey : s.outcomes key = none)
    (hlive : s.status = .live) (seq : Seq) (p : ParticipantId) (n m : Qty) (a b : Price) :
    Sealed ⟨p, key, n, a⟩ ⟨p, key, m, b⟩ (s.shelve seq p key n a).1 (s.shelve seq p key m b).1 := by
  have hrecord : ∀ qty : Qty, some (mergeOutcome (s.outcomes key) (.resting qty)) =
      some (.resting qty) := fun qty ↦ by rw [hkey]; rfl
  have hapart : ∀ w, s.window = some w → ∀ c ∈ w.bids, c.key ≠ key := by
    intro w hw c hc heq
    have hmem : c.live ∈ s.book.live := by
      rw [live_book, liveBids, hw]
      exact List.mem_append_left _ (List.mem_map_of_mem hc)
    have hrecorded : s.outcomes c.key ≠ none := hkeyed.recorded_of_live hmem
    rw [heq] at hrecorded
    exact hrecorded hkey
  have hladder : ∀ (qty : Qty) (limit : Price),
      (s.resting.insert ⟨seq, p, key, qty, limit⟩).without key = s.resting.without key :=
    fun _ _ ↦ PriceLadder.without_insert_hidden rfl
  have hother := fun (p' : ParticipantId) (hp' : p' ≠ p) (price : Price) (qty : Qty) ↦
    s.collateral_reserve_of_ne hp' price qty
  obtain ⟨c, hc⟩ := s.reserve_frame p a n
  obtain ⟨d, hd⟩ := s.reserve_frame p b m
  unfold shelve
  dsimp only
  rw [hc, hd]
  refine ⟨rfl, hlive, hlive, rfl, rfl, rfl, rfl, ?_, fun p' hp' ↦ ?_, fun k hk ↦ ?_, ?_, ?_, hapart⟩
  · exact (hladder m b).trans (hladder n a).symm
  · have hleft := hother p' hp' a n
    have hright := hother p' hp' b m
    rw [hc] at hleft
    rw [hd] at hright
    exact hright.trans hleft.symm
  · exact (Function.update_of_ne hk _ _).trans (Function.update_of_ne hk _ _).symm
  · exact (Function.update_self _ _ _).trans (hrecord n)
  · exact (Function.update_self _ _ _).trans (hrecord m)

theorem waits_of_rested (hpriced : s.Priced) (hkeyed : s.book.Keyed) {seq : Seq} {ts : Nanos}
    {p : ParticipantId} {key : IdempotencyKey} {qty : Qty} {limit : Price}
    (hstep : s.step ⟨seq, ts, .submitBid p key qty (.resting limit)⟩ = some (s', o))
    (hrested : .rested key p qty limit ∈ o) :
    (s.entry ⟨seq, ts, .submitBid p key qty (.resting limit)⟩).outcomes key = none ∧
      (s.entry ⟨seq, ts, .submitBid p key qty (.resting limit)⟩).status = .live ∧
      s' = ((s.entry ⟨seq, ts, .submitBid p key qty (.resting limit)⟩).shelve seq p key qty
        limit).1 ∧ Waits ⟨p, key, qty, limit⟩ s' := by
  have hanswer : .rested key p qty limit ∈
      s.answer ⟨seq, ts, .submitBid p key qty (.resting limit)⟩ := by
    rw [step_events hstep] at hrested
    rcases List.mem_append.mp hrested with h | h
    · rcases (s.stamp seq ts).closeElapsedWindow_cases (max ts s.now) with
        ⟨heq, -⟩ | ⟨w, -, -, heq⟩
      · rw [heq] at h
        exact absurd h List.not_mem_nil
      · rw [heq] at h
        rcases mem_flushWindow h with ⟨k, reason, h⟩ | ⟨f, h⟩ | ⟨id, a, b, h⟩ | ⟨a, b, c, h⟩
        · cases h
        · cases h
        · cases h
        · cases h
    · exact h
  obtain ⟨hkey, hlive, hshelve⟩ := onBid_rested hanswer
  have hpost : s' = ((s.entry ⟨seq, ts, .submitBid p key qty (.resting limit)⟩).shelve seq p key qty
      limit).1 := (step_entry hstep).trans (congrArg Prod.fst hshelve)
  refine ⟨hkey, hlive, hpost, hpriced.step hstep,
    (hpriced.moves hstep).keeps (fun _ _ hB hmove ↦ hB.move hmove) hkeyed, ?_⟩
  rw [hpost]
  refine List.mem_map.mpr ⟨⟨seq, p, key, qty, limit⟩, ?_, rfl⟩
  obtain ⟨c, hc⟩ := (s.entry ⟨seq, ts, .submitBid p key qty (.resting limit)⟩).reserve_frame p limit
    qty
  unfold shelve
  dsimp only
  rw [hc]
  exact (PriceLadder.bids_insert_perm _).mem_iff.mpr List.mem_cons_self

end AuctionState

/-! ## Two runs

Both runs pass the same commands from there on. They announce the same, one command at a time,
unless a command carries the key and the quantities differ. -/

variable {config : AuctionConfig} {tr : List Transition} {s s₁ s₂ u₁ u₂ : AuctionState}

private theorem map_out_eq_iff {P : Prop} {C : Transition → Prop} {l l' : List Transition}
    (h : List.Forall₂ (fun t t' : Transition ↦ t.out = t'.out ↔ P ∨ C t) l l') :
    l.map Runs.Transition.out = l'.map Runs.Transition.out ↔ P ∨ ∀ t ∈ l, C t := by
  induction h with
  | nil => simp
  | @cons t t' l l' hhead htail ih =>
    rw [List.map_cons, List.map_cons, List.cons.injEq, hhead, ih, List.forall_mem_cons]
    exact or_and_left.symm

/-- **When a resting bid is sealed.** Two runs go through the same commands, but for the quantity
and the limit of one bid that both rest, and its owner neither submits nor withdraws anything after
it. For as long as the auction is live and neither run has triggered the bid, the two runs announce
the same, command by command, exactly when the quantities are the same or no command after it
carries the key of the bid. -/
theorem sealed_iff {seq : Seq} {ts : Nanos} {q : ParticipantId} {k : IdempotencyKey} {n m : Qty}
    {a b : Price} {o₁ o₂ : List Event} {tr₁ tr₂ : List Transition} (hrun : Run config tr s)
    (hstep₁ : s.step ⟨seq, ts, .submitBid q k n (.resting a)⟩ = some (s₁, o₁))
    (hstep₂ : s.step ⟨seq, ts, .submitBid q k m (.resting b)⟩ = some (s₂, o₂))
    (hrested₁ : .rested k q n a ∈ o₁) (hrested₂ : .rested k q m b ∈ o₂)
    (hrun₁ : Runs.Run AuctionState.step s₁ tr₁ u₁) (hrun₂ : Runs.Run AuctionState.step s₂ tr₂ u₂)
    (hsame : tr₁.map Runs.Transition.input = tr₂.map Runs.Transition.input)
    (hsilent : ∀ t ∈ tr₁, q ∉ t.input.cmd.bidder?)
    (hwaits₁ : ∀ t ∈ tr₁, AuctionState.Untriggered ⟨q, k, n, a⟩ t.post)
    (hwaits₂ : ∀ t ∈ tr₂, AuctionState.Untriggered ⟨q, k, m, b⟩ t.post) :
    tr₁.map Runs.Transition.out = tr₂.map Runs.Transition.out ↔
      n = m ∨ ∀ t ∈ tr₁, k ∉ t.input.cmd.key? := by
  have hkeyed := run_keyed hrun
  have hpriced := run_priced hrun
  obtain ⟨hkey, hlive, hpost₁, hs₁⟩ := AuctionState.waits_of_rested hpriced hkeyed hstep₁ hrested₁
  obtain ⟨-, -, hpost₂, hs₂⟩ := AuctionState.waits_of_rested hpriced hkeyed hstep₂ hrested₂
  have hstart : AuctionState.Sealed ⟨q, k, n, a⟩ ⟨q, k, m, b⟩ s₁ s₂ := by
    have hbefore := hpriced.stamp seq ts
    have hmoves : Book.Moves _ .tick s.book
        (s.entry ⟨seq, ts, .submitBid q k n (.resting a)⟩).book := hbefore.moves
    rw [hpost₁, hpost₂]
    exact AuctionState.sealed_shelve (hmoves.keeps (fun _ _ hB hmove ↦ hB.move hmove) hkeyed) hkey
      hlive seq q n m a b
  refine map_out_eq_iff (P := n = m) (C := fun t ↦ k ∉ t.input.cmd.key?)
    (hrun₁.pair (P := fun u v ↦ AuctionState.Sealed ⟨q, k, n, a⟩ ⟨q, k, m, b⟩ u v ∧
        AuctionState.Waits ⟨q, k, n, a⟩ u ∧ AuctionState.Waits ⟨q, k, m, b⟩ v)
      (C := fun t ↦ q ∉ t.input.cmd.bidder? ∧ AuctionState.Untriggered ⟨q, k, n, a⟩ t.post)
      (D := fun t ↦ AuctionState.Untriggered ⟨q, k, m, b⟩ t.post) ⟨hstart, hs₁, hs₂⟩
      (fun t t' hP hinput hstep hstep' hC hC' ↦ ?_) hrun₂ hsame
      (fun t ht ↦ ⟨hsilent t ht, hwaits₁ t ht⟩) hwaits₂).2
  rw [← hinput] at hstep'
  exact hP.1.step rfl rfl hP.2.1 hP.2.2 hC.1 hstep hstep' hC.2 hC'

/-- A tick a second later announces the same, whether five units rest at 500 or seven at 400. -/
theorem sealed_iff_sample :
    ∃ s s₁ s₂ u₁ u₂ : AuctionState, ∃ o₁ o₂ e₁ e₂,
      s = (play (.sample 0) (script [(0, .open), (0, .setCollateral 1 (I64.lit 100000))])).2 ∧
      s.step ⟨U64.lit 2, 0, .submitBid 1 101 (U64.lit 5) (.resting (I64.lit 500))⟩ = some (s₁, o₁) ∧
      s.step ⟨U64.lit 2, 0, .submitBid 1 101 (U64.lit 7) (.resting (I64.lit 400))⟩ = some (s₂, o₂) ∧
      s₁.step ⟨U64.lit 3, U64.lit 1000000000, .tick⟩ = some (u₁, e₁) ∧
      s₂.step ⟨U64.lit 3, U64.lit 1000000000, .tick⟩ = some (u₂, e₂) ∧ e₁ = e₂ := by
  have hrun := run_play (.sample 0) (script [(0, .open), (0, .setCollateral 1 (I64.lit 100000))])
  generalize hs : (play (.sample 0) (script [(0, .open),
    (0, .setCollateral 1 (I64.lit 100000))])).2 = s at hrun
  have hfirst : ∃ s₁ o₁ u₁ e₁,
      s.step ⟨U64.lit 2, 0, .submitBid 1 101 (U64.lit 5) (.resting (I64.lit 500))⟩ = some (s₁, o₁) ∧
      .rested 101 1 (U64.lit 5) (I64.lit 500) ∈ o₁ ∧
      s₁.step ⟨U64.lit 3, U64.lit 1000000000, .tick⟩ = some (u₁, e₁) ∧ u₁.status = .live ∧
      ⟨1, 101, U64.lit 5, I64.lit 500⟩ ∈ u₁.resting.bids.map RestingBid.live := by
    rw [← hs]
    exact ⟨_, _, _, _, rfl, by decide, rfl, by decide, by decide⟩
  have hsecond : ∃ s₂ o₂ u₂ e₂,
      s.step ⟨U64.lit 2, 0, .submitBid 1 101 (U64.lit 7) (.resting (I64.lit 400))⟩ = some (s₂, o₂) ∧
      .rested 101 1 (U64.lit 7) (I64.lit 400) ∈ o₂ ∧
      s₂.step ⟨U64.lit 3, U64.lit 1000000000, .tick⟩ = some (u₂, e₂) ∧ u₂.status = .live ∧
      ⟨1, 101, U64.lit 7, I64.lit 400⟩ ∈ u₂.resting.bids.map RestingBid.live := by
    rw [← hs]
    exact ⟨_, _, _, _, rfl, by decide, rfl, by decide, by decide⟩
  obtain ⟨s₁, o₁, u₁, e₁, hstep₁, hrested₁, htick₁, hlive₁, hrests₁⟩ := hfirst
  obtain ⟨s₂, o₂, u₂, e₂, hstep₂, hrested₂, htick₂, hlive₂, hrests₂⟩ := hsecond
  have hsame := (sealed_iff hrun hstep₁ hstep₂ hrested₁ hrested₂ (.snoc .nil htick₁)
    (.snoc .nil htick₂) rfl (List.forall_mem_singleton.mpr
      (show (1 : ParticipantId) ∉ Command.bidder? .tick by decide))
    (List.forall_mem_singleton.mpr ⟨hlive₁, hrests₁⟩)
    (List.forall_mem_singleton.mpr ⟨hlive₂, hrests₂⟩)).mpr
      (Or.inr (List.forall_mem_singleton.mpr
        (show (101 : IdempotencyKey) ∉ Command.key? .tick by decide)))
  exact ⟨s, s₁, s₂, u₁, u₂, o₁, o₂, e₁, e₂, rfl, hstep₁, hstep₂, htick₁, htick₂,
    (List.cons.inj hsame).1⟩

/-- Somebody else's withdrawal under the key is answered with the quantity that rests. -/
theorem resting_quantity_shows :
    ¬∀ (config : AuctionConfig) (tr : List Transition) (s s₁ s₂ u₁ u₂ : AuctionState) (seq : Seq)
      (ts : Nanos) (q : ParticipantId) (k : IdempotencyKey) (n m : Qty) (a b : Price)
      (o₁ o₂ : List Event) (tr₁ tr₂ : List Transition), Run config tr s →
      s.step ⟨seq, ts, .submitBid q k n (.resting a)⟩ = some (s₁, o₁) →
      s.step ⟨seq, ts, .submitBid q k m (.resting b)⟩ = some (s₂, o₂) →
      .rested k q n a ∈ o₁ → .rested k q m b ∈ o₂ → Runs.Run AuctionState.step s₁ tr₁ u₁ →
      Runs.Run AuctionState.step s₂ tr₂ u₂ →
      tr₁.map Runs.Transition.input = tr₂.map Runs.Transition.input →
      (∀ t ∈ tr₁, q ∉ t.input.cmd.bidder?) →
      (∀ t ∈ tr₁, AuctionState.Untriggered ⟨q, k, n, a⟩ t.post) →
      (∀ t ∈ tr₂, AuctionState.Untriggered ⟨q, k, m, b⟩ t.post) →
      tr₁.map Runs.Transition.out = tr₂.map Runs.Transition.out := by
  intro h
  have hrun := run_play (.sample 0) (script [(0, .open), (0, .setCollateral 1 (I64.lit 100000))])
  generalize hs : (play (.sample 0) (script [(0, .open),
    (0, .setCollateral 1 (I64.lit 100000))])).2 = s at hrun
  have hfirst : ∃ s₁ o₁ u₁,
      s.step ⟨U64.lit 2, 0, .submitBid 1 101 (U64.lit 5) (.resting (I64.lit 500))⟩ = some (s₁, o₁) ∧
      .rested 101 1 (U64.lit 5) (I64.lit 500) ∈ o₁ ∧
      s₁.step ⟨U64.lit 3, 0, .cancelResting 2 101⟩ =
        some (u₁, [.duplicate 101 (.resting (U64.lit 5))]) ∧ u₁.status = .live ∧
      ⟨1, 101, U64.lit 5, I64.lit 500⟩ ∈ u₁.resting.bids.map RestingBid.live := by
    rw [← hs]
    exact ⟨_, _, _, rfl, by decide, rfl, by decide, by decide⟩
  have hsecond : ∃ s₂ o₂ u₂,
      s.step ⟨U64.lit 2, 0, .submitBid 1 101 (U64.lit 7) (.resting (I64.lit 400))⟩ = some (s₂, o₂) ∧
      .rested 101 1 (U64.lit 7) (I64.lit 400) ∈ o₂ ∧
      s₂.step ⟨U64.lit 3, 0, .cancelResting 2 101⟩ =
        some (u₂, [.duplicate 101 (.resting (U64.lit 7))]) ∧ u₂.status = .live ∧
      ⟨1, 101, U64.lit 7, I64.lit 400⟩ ∈ u₂.resting.bids.map RestingBid.live := by
    rw [← hs]
    exact ⟨_, _, _, rfl, by decide, rfl, by decide, by decide⟩
  obtain ⟨s₁, o₁, u₁, hstep₁, hrested₁, hcancel₁, hlive₁, hrests₁⟩ := hfirst
  obtain ⟨s₂, o₂, u₂, hstep₂, hrested₂, hcancel₂, hlive₂, hrests₂⟩ := hsecond
  have hsame := h _ _ _ _ _ _ _ _ _ _ _ _ _ _ _ _ _ _ _ hrun hstep₁ hstep₂ hrested₁ hrested₂
    (.snoc .nil hcancel₁) (.snoc .nil hcancel₂) rfl (List.forall_mem_singleton.mpr
      (show (1 : ParticipantId) ∉ Command.bidder? (.cancelResting 2 101) by decide))
    (List.forall_mem_singleton.mpr ⟨hlive₁, hrests₁⟩)
    (List.forall_mem_singleton.mpr ⟨hlive₂, hrests₂⟩)
  have houts : [Event.duplicate 101 (.resting (U64.lit 5))] =
      [Event.duplicate 101 (.resting (U64.lit 7))] := (List.cons.inj hsame).1
  revert houts
  decide

end DutchAuction
