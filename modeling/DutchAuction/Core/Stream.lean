import DutchAuction.Core.Account
import DutchAuction.Core.Fairness
import DutchAuction.Library.Audit

/-!
# What the event stream may say next

The stream is a conversation with rules, and a reader can check them with nothing but the account it
keeps. `Account.Permits` is the rules: a bid is queued or rests under a key that was never used, and
what is filled, withdrawn or turned away was queued or rests; fills are numbered in order and take
from what is left; the price never rises from one fill to the next; a clearing comes when no bid is
left unanswered and every fill is at its price; after the end only refusals, retries and ceilings
are heard.

The machine never breaks them: each phase of each handler emits what the account of the state before
permits. The loops are followed pass by pass, through the same views as in
`DutchAuction.Core.Account`. Only the withdrawal needs a fact of the state that the account does not
give: a bid of the ladder is on record as resting (`Shelved`).
-/

namespace DutchAuction

namespace Account

/-- A bid is held under the key: it is queued or rests. -/
def Holds (a : Account) (key : IdempotencyKey) (qty : Qty) : Prop :=
  a.outcomes key = some (.queued qty) ∨ a.outcomes key = some (.resting qty)

/-- No bid is held. -/
def Settled (a : Account) : Prop := ∀ key qty, ¬a.Holds key qty

/-- A price that may come next: not below the floor, and not above what anyone has paid. -/
def Quotes (config : AuctionConfig) (a : Account) (price : Price) : Prop :=
  config.floorPrice ≤ price ∧ ∀ g ∈ a.fills, price ≤ g.price

/-- What the stream may say next, to a reader with this account. -/
def Permits (config : AuctionConfig) (a : Account) : Event → Prop
  | .opened price supply =>
    a.status = .pending ∧ price = config.startPrice ∧ supply = config.totalSupply
  | .collateralSet _ _ => True
  | .queued key _ qty price =>
    a.status = .live ∧ a.outcomes key = none ∧ 0 < qty.val ∧ a.Quotes config price
  | .rested key _ qty limit =>
    a.status = .live ∧ a.outcomes key = none ∧ 0 < qty.val ∧ ∀ g ∈ a.fills, limit ≤ g.price
  | .restingCancelled key _ qty => a.status = .live ∧ a.outcomes key = some (.resting qty)
  | .filled f =>
    a.status = .live ∧ (∃ qty, a.Holds f.key qty ∧ f.qty ≤ qty) ∧ 0 < f.qty.val ∧
      f.qty ≤ a.supplyRemaining ∧ f.id = a.fills.length ∧ a.Quotes config f.price
  | .rejected key reason =>
    (a.outcomes key = none ∧ reason ≠ .unfilled) ∨
      (a.status = .live ∧ (∃ qty, a.Holds key qty) ∧
        (reason = .supplyExhausted ∨ reason = .unfilled ∨ reason = .notLive))
  | .duplicate key outcome => a.outcomes key = some outcome
  | .repriced id fromPrice toPrice =>
    a.status = .live ∧ config.floorPrice ≤ toPrice ∧ toPrice < fromPrice ∧
      ∃ f ∈ a.fills, f.id = id ∧ f.price = fromPrice
  | .cleared price filled unsold =>
    a.status = .live ∧ a.Settled ∧ (∀ f ∈ a.fills, f.price = price) ∧ filled.val = sold a.fills ∧
      unsold = a.supplyRemaining ∧ (unsold.val = 0 ∨ price = config.floorPrice)
  | .cancelled => a.status.isTerminal = false ∧ a.Settled

/-- Every event is one that might come next. -/
abbrev Permitted (config : AuctionConfig) : Account → List Event → Prop :=
  Audit.Permitted record (Permits config)

end Account

namespace Book

variable {floor : Price} {cmd : Command} {B B' : Book} {k : IdempotencyKey}

theorem Move.queued (h : Move floor cmd B B') {q : Qty} (hq : B'.outcomes k = some (.queued q)) :
    B.outcomes k = none ∨ B.outcomes k = some (.queued q) := by
  have hmerge : ∀ prior outcome, mergeOutcome prior outcome = .queued q → outcome = .queued q := by
    intro prior outcome hm
    unfold mergeOutcome at hm
    split at hm <;> simp_all
  have hupdate : ∀ (key : IdempotencyKey) (o : Option Outcome), o ≠ some (.queued q) →
      Function.update B.outcomes key o k = some (.queued q) →
        B.outcomes k = none ∨ B.outcomes k = some (.queued q) := by
    intro key o ho hk
    by_cases heq : k = key
    · rw [heq, Function.update_self] at hk
      exact absurd hk ho
    · rw [Function.update_of_ne heq] at hk
      exact Or.inr hk
  cases h with
  | accept b kind outcome cost _ _ _ hkey =>
    by_cases heq : k = b.key
    · exact Or.inl (heq ▸ hkey)
    · exact Or.inr ((Function.update_of_ne heq _ _).symm.trans hq)
  | refuse key reason => exact hupdate key _ (by simp) hq
  | retire b rest outcome _ houtcome =>
    refine hupdate b.key _ (fun hm ↦ ?_) hq
    have hm := hmerge _ _ (Option.some.inj hm)
    rcases houtcome with rfl | ⟨reason, rfl⟩
    · cases hm
    · cases hm
  | fill b rest f =>
    refine hupdate b.key _ (fun hm ↦ ?_) hq
    have hm := hmerge _ _ (Option.some.inj hm)
    cases hm
  | reprice l₁ l₂ f price =>
    have hq : Function.update B.outcomes f.key
      ((B.outcomes f.key).map (Outcome.quoting price)) k = some (.queued q) := hq
    by_cases heq : k = f.key
    · rw [heq, Function.update_self] at hq
      rw [heq]
      cases ho : B.outcomes f.key with
      | none => exact Or.inl rfl
      | some o =>
        rw [ho, Option.map_some] at hq
        cases o with
        | queued r => exact Or.inr hq
        | _ => cases Option.some.inj hq
    · rw [Function.update_of_ne heq] at hq
      exact Or.inr hq
  | fund => exact Or.inr hq

theorem Moves.not_queued (h : Moves floor cmd B B') (hk : B.outcomes k ≠ none)
    (hq : ∀ q, B.outcomes k ≠ some (.queued q)) : ∀ q, B'.outcomes k ≠ some (.queued q) := by
  refine (h.keeps (P := fun B ↦ B.outcomes k ≠ none ∧ ∀ q, B.outcomes k ≠ some (.queued q))
    (fun B B' hB hmove ↦ ⟨hmove.recorded hB.1, fun q hq ↦ ?_⟩) ⟨hk, hq⟩).2
  exact (hmove.queued hq).elim hB.1 (hB.2 q)

end Book

namespace AuctionState

variable {s : AuctionState} {cmd : Command} {r : AuctionState × List Event} {price : Price}

/-! ## The ladder is on record as resting

A reader who is told that a bid rests, and nothing since, may expect it to be drained. So the bids
on the ladder must be on record as resting, which the account does not say. -/

/-- The bids of the ladder are on record as resting. -/
def Shelved (s : AuctionState) : Prop :=
  ∀ b ∈ s.resting.bids, s.outcomes b.key = some (.resting b.qty)

theorem mem_book_of_mem_resting {b : RestingBid} (hb : b ∈ s.resting.bids) :
    b.live ∈ s.book.live :=
  Multiset.mem_add.mpr (Or.inr (Multiset.mem_coe.mpr (List.mem_map_of_mem hb)))

theorem Shelved.of_subset {t : AuctionState} {floor : Price} (h : s.Shelved)
    (hmoves : Book.Moves floor cmd s.book t.book) (hkeyed : t.book.Keyed)
    (hsubset : t.resting.bids ⊆ s.resting.bids) : t.Shelved := by
  intro b hb
  have hrecord := h b (hsubset hb)
  refine (hkeyed.of_live (mem_book_of_mem_resting hb)).2.2.resolve_left ?_
  have hsome : s.book.outcomes b.live.key = some (.resting b.qty) := hrecord
  refine hmoves.not_queued (fun hnone ↦ ?_) (fun q hq ↦ ?_) _
  · rw [hsome] at hnone
    cases hnone
  · rw [hsome] at hq
    cases hq

theorem resting_flushWindow_subset (s : AuctionState) :
    s.flushWindow.1.resting.bids ⊆ s.resting.bids := by
  rcases s.flushWindow_cases with ⟨-, hf⟩ | ⟨w, -, -, hf⟩ | ⟨w, hw, hlive, -⟩
  · rw [hf]
    exact List.Subset.refl _
  · have hbare : s.flushWindow.1.bare = { s.bare with window := none } := by
      rw [hf]
      exact bare_turnAwayPending_loop .notLive w.bids
    have hresting := congrArg AuctionState.resting hbare
    rw [show s.flushWindow.1.resting = s.resting from hresting]
    exact List.Subset.refl _
  · have hbare := bare_flushWindow_live hw hlive
    split_ifs at hbare
    · rw [bare_clear] at hbare
      have hresting := congrArg AuctionState.resting hbare
      rw [show s.flushWindow.1.resting = PriceLadder.new from hresting]
      exact List.nil_subset _
    · rw [bare_settled] at hbare
      have hresting := congrArg AuctionState.resting hbare
      rw [show s.flushWindow.1.resting = s.resting from hresting]
      exact List.Subset.refl _

theorem Phase.resting_cases (hphase : s.Phase cmd r) :
    r.1.resting.bids ⊆ s.resting.bids ∨
      ∃ seq participant key qty limit, s.outcomes key = none ∧
        r.1 = (s.shelve seq participant key qty limit).1 := by
  cases hphase with
  | duplicate => exact Or.inl (List.Subset.refl _)
  | unknown => exact Or.inl (List.Subset.refl _)
  | refuse => exact Or.inl (List.Subset.refl _)
  | uncovered participant key price qty =>
    obtain ⟨c, hc⟩ := s.reserve_frame participant price qty
    rw [hc]
    exact Or.inl (List.Subset.refl _)
  | queue seq participant key qty =>
    obtain ⟨c, hc⟩ := s.reserve_frame participant (s.config.windowBounds s.now).2 qty
    unfold enqueue
    dsimp only
    rw [hc]
    exact Or.inl (List.Subset.refl _)
  | rest seq participant key qty limit _ hkey => exact Or.inr ⟨_, _, _, _, _, hkey, rfl⟩
  | withdraw participant key bid hbid =>
    obtain ⟨-, -, hperm⟩ := PriceLadder.remove_eq_some hbid
    exact Or.inl fun b hb ↦ hperm.mem_iff.mpr (List.mem_cons_of_mem _ hb)
  | fund => exact Or.inl (List.Subset.refl _)
  | «open» hpending =>
    rw [onOpen, if_pos hpending]
    exact Or.inl (List.Subset.refl _)
  | trigger =>
    rw [triggerResting_eq]
    exact Or.inl fun b hb ↦ (PriceLadder.bids_drainTriggered_perm _).mem_iff.mp
      (List.mem_append_right _ hb)
  | flush => exact Or.inl s.resting_flushWindow_subset
  | floor =>
    have hresting := congrArg AuctionState.resting (s.bare_clear s.config.floorPrice)
    rw [show (s.clear s.config.floorPrice).1.resting = PriceLadder.new from hresting]
    exact Or.inl (List.nil_subset _)
  | cancel hopen =>
    have hresting := congrArg AuctionState.resting (bare_onCancel hopen)
    rw [show s.onCancel.1.resting = PriceLadder.new from hresting]
    exact Or.inl (List.nil_subset _)

/-- What a state between commands satisfies, and its ladder. -/
structure Spoken (s : AuctionState) : Prop where
  sound : s.Sound
  shelved : s.Shelved

theorem spoken_new (config : AuctionConfig) : (new config).Spoken :=
  ⟨sound_new config, fun _ hb ↦ absurd hb List.not_mem_nil⟩

theorem Spoken.phase (h : s.Spoken) (hphase : s.Phase cmd r) : r.1.Spoken := by
  have hsound := h.sound.phase hphase
  refine ⟨hsound, ?_⟩
  rcases hphase.resting_cases with hsubset | ⟨seq, p, key, qty, limit, hkey, hr⟩
  · exact h.shelved.of_subset (hphase.moves h.sound.priced) hsound.keyed hsubset
  · rw [hr]
    obtain ⟨c, hc⟩ := s.reserve_frame p limit qty
    rw [shelve, hc]
    intro b hb
    rcases List.mem_cons.mp ((PriceLadder.bids_insert_perm _).mem_iff.mp hb) with rfl | hb
    · refine (Function.update_self _ _ _).trans ?_
      rw [hkey]
      rfl
    · have hne : b.key ≠ key := fun heq ↦ by
        have hrecord := h.shelved b hb
        rw [heq, hkey] at hrecord
        cases hrecord
      exact (Function.update_of_ne hne _ _).trans (h.shelved b hb)

/-! ## The loops -/

section Loops

variable {config : AuctionConfig} {status : Status} {shown : Option Price} {supply left : Qty}

theorem permitted_turnAway_loop {α : Type*} {f : α → AuctionState → AuctionState × List Event}
    {reason : RejectReason}
    (hreason : reason = .supplyExhausted ∨ reason = .unfilled ∨ reason = .notLive)
    (live : α → LiveBid)
    (hf : ∀ a s, f a s =
      s.turnAway reason (live a).participant (live a).key (live a).price (live a).qty)
    {l : List α} (hlive : ∀ a ∈ l, status = .live) (h : (s.holding (l.map live) []).Keyed) :
    Account.Permitted config (s.showing status shown supply []) (Emit.forEach f l s).2 := by
  have hknown : reason ≠ .unknownBid := by
    rcases hreason with rfl | rfl | rfl <;> exact fun h ↦ nomatch h
  refine Audit.permitted_forEach
    (fun l (s : AuctionState) ↦ (∀ a ∈ l, status = .live) ∧ (s.holding (l.map live) []).Keyed)
    (fun _ s ↦ s.showing status shown supply []) (fun a as s h ↦ ?_) ⟨hlive, h⟩
  obtain ⟨hlive, h⟩ := h
  have hb : (live a) ∈ (s.holding (live a :: as.map live) []).live :=
    Multiset.mem_add.mpr (Or.inl (Multiset.mem_coe.mpr List.mem_cons_self))
  rw [hf]
  refine ⟨⟨fun a ha ↦ hlive a (List.mem_cons_of_mem _ ha),
    h.move (move_turnAway reason (live a) : Book.Move 0 .tick _ _)⟩,
    told_turnAway hknown _ (answerable_of_holding h) _ _, Audit.permitted_singleton.mpr ?_⟩
  exact Or.inr ⟨hlive a List.mem_cons_self, ⟨_, (h.of_live hb).2.2⟩, hreason⟩

theorem permitted_repriceFill_loop (hfloor : config.floorPrice ≤ price) {fills : List Fill}
    (h : (s.holding [] fills).Keyed) (hids : ((s.fills ++ fills).map Fill.id).Nodup)
    (hprice : ∀ f ∈ fills, price ≤ f.price) :
    Account.Permitted config (s.showing .live shown supply fills)
      (Emit.forEach (repriceFill price) fills s).2 := by
  refine Audit.permitted_forEach
    (fun l (s : AuctionState) ↦ (s.holding [] l).Keyed ∧ ((s.fills ++ l).map Fill.id).Nodup ∧
      ∀ f ∈ l, price ≤ f.price)
    (fun l s ↦ s.showing .live shown supply l) (fun f l s h ↦ ?_) ⟨h, hids, hprice⟩
  obtain ⟨hkeyed, hids, hprice⟩ := h
  have hmem : f ∈ (s.holding [] (f :: l)).fills := List.mem_append_right _ List.mem_cons_self
  have hfills := congrArg AuctionState.fills (bare_repriceFill (s := s) price f)
  have hfills : (s.repriceFill price f).1.fills = s.fills ++ [f.at price] := hfills
  refine ⟨⟨?_, ?_, fun g hg ↦ hprice g (List.mem_cons_of_mem _ hg)⟩,
    told_repriceFill hids (hkeyed.of_fill hmem).2.2, ?_⟩
  · exact hkeyed.move (move_repriceFill f le_rfl (hprice f List.mem_cons_self) :
      Book.Move _ .tick _ _)
  · rw [hfills, List.append_assoc, List.map_append]
    rw [List.map_append] at hids
    exact hids
  · unfold repriceFill
    dsimp only
    split_ifs with heq
    · exact Audit.permitted_nil _
    · refine Audit.permitted_singleton.mpr ⟨rfl, hfloor, ?_, f, hmem, rfl, rfl⟩
      exact lt_of_le_of_ne (hprice f List.mem_cons_self) (Ne.symm heq)

theorem permitted_settle_loop {exhausted : Bool} {l : List (PendingBid × ℕ)}
    (hfloor : config.floorPrice ≤ price)
    (h : (s.holding (l.map fun ba ↦ ba.1.live) []).Keyed)
    (hbids : ∀ ba ∈ l, price ≤ ba.1.reservePrice ∧ ba.2 ≤ ba.1.qty.val ∧
      (0 < ba.2 → exhausted = false → ba.2 = ba.1.qty.val))
    (hsum : (l.map Prod.snd).sum + left.val < 2 ^ 64) (hnext : s.nextFillId = s.fills.length)
    (hprice : ∀ f ∈ s.fills, price ≤ f.price) :
    Account.Permitted config
      (s.showing .live shown (U64.saturate ((l.map Prod.snd).sum + left.val)) [])
      (Emit.forEach (settle price exhausted) l s).2 := by
  refine Audit.permitted_forEach
    (fun l (s : AuctionState) ↦ (s.holding (l.map fun ba ↦ ba.1.live) []).Keyed ∧
      (∀ ba ∈ l, price ≤ ba.1.reservePrice ∧ ba.2 ≤ ba.1.qty.val ∧
        (0 < ba.2 → exhausted = false → ba.2 = ba.1.qty.val)) ∧
      (l.map Prod.snd).sum + left.val < 2 ^ 64 ∧ s.nextFillId = s.fills.length ∧
      ∀ f ∈ s.fills, price ≤ f.price)
    (fun l s ↦ s.showing .live shown (U64.saturate ((l.map Prod.snd).sum + left.val)) [])
    (fun ba l s h ↦ ?_) ⟨h, hbids, hsum, hnext, hprice⟩
  obtain ⟨hkeyed, hbids, hsum, hnext, hprice⟩ := h
  obtain ⟨b, alloc⟩ := ba
  obtain ⟨hreserve, hle, hfull⟩ := hbids _ List.mem_cons_self
  rw [List.map_cons, List.sum_cons] at hsum ⊢
  have hspent : (U64.saturate (alloc + (l.map Prod.snd).sum + left.val)).saturatingSub
      (U64.saturate alloc) = U64.saturate ((l.map Prod.snd).sum + left.val) := by
    refine U64.ext ?_
    rw [U64.val_saturatingSub, U64.val_saturate_of_lt hsum, U64.val_saturate_of_lt (by omega),
      U64.val_saturate_of_lt (by omega)]
    omega
  have hgets : 0 < alloc → alloc ≤ b.qty.val ∧ (exhausted = false → alloc = b.qty.val) :=
    fun hpos ↦ ⟨hle, hfull hpos⟩
  have hbare := s.bare_settle price hgets
  have hfills := congrArg AuctionState.fills hbare
  have hfills : (s.settle price exhausted (b, alloc)).1.fills =
    s.fills ++ fillsOf price s.nextFillId [(b, alloc)] := hfills
  have hid := congrArg AuctionState.nextFillId hbare
  have hid : (s.settle price exhausted (b, alloc)).1.nextFillId =
    s.nextFillId + (fillsOf price s.nextFillId [(b, alloc)]).length := hid
  have hb : b.live ∈ (s.holding (b.live :: l.map fun ba ↦ ba.1.live) []).live :=
    Multiset.mem_add.mpr (Or.inl (Multiset.mem_coe.mpr List.mem_cons_self))
  have hholds := (hkeyed.of_live hb).2.2
  refine ⟨⟨?_, fun c hc ↦ hbids c (List.mem_cons_of_mem _ hc), by omega, ?_, fun f hf ↦ ?_⟩, ?_, ?_⟩
  · exact hkeyed.move (move_settle le_rfl hreserve hle hfull : Book.Move _ .tick _ _)
  · rw [hid, hfills, List.length_append, hnext]
  · rw [hfills] at hf
    rcases List.mem_append.mp hf with hf | hf
    · exact hprice f hf
    · obtain ⟨-, -, -, -, -, -, hat⟩ := mem_fillsOf hf
      exact hat.ge
  · rw [told_settle (answerable_of_holding hkeyed) hle hfull, hspent]
  · unfold settle
    dsimp only
    split_ifs with hzero
    · exact Audit.permitted_singleton.mpr (Or.inr ⟨rfl, ⟨_, hholds⟩, Or.inl rfl⟩)
    · have hpos : 0 < alloc := Nat.pos_of_ne_zero fun hz ↦ hzero (isZero_saturate.mpr hz)
      have hval : (U64.saturate alloc).val = alloc := U64.val_saturate_of_lt (by omega)
      refine Audit.permitted_singleton.mpr ⟨rfl, ⟨b.qty, hholds, ?_⟩, ?_, ?_, ?_, hfloor, ?_⟩
      · exact U64.le_def.mpr (hval.trans_le hle)
      · exact hval.symm ▸ hpos
      · show U64.saturate alloc ≤ U64.saturate _
        rw [U64.le_def, hval, U64.val_saturate_of_lt hsum]
        omega
      · show s.nextFillId = (s.fills ++ []).length
        rw [List.append_nil, hnext]
      · intro g hg
        rw [show (s.showing .live shown _ []).fills = s.fills from List.append_nil _] at hg
        exact hprice g hg

end Loops

/-! ## Clearing, flushing and cancelling

The last word, that the auction has cleared or was cancelled, is permitted only when no bid is held
any more. It comes after the bids have been turned away. -/

variable {config : AuctionConfig}

theorem settled_of_idle (hkeyed : s.book.Keyed) (hwindow : s.window = none)
    (hresting : s.resting.bids = []) {a : Account} (ha : a.outcomes = s.outcomes) : a.Settled := by
  intro key qty hholds
  rw [Account.Holds, ha] at hholds
  obtain ⟨b, hb, -⟩ := hkeyed.live_iff.mp hholds
  have hnone : s.book.live = 0 := by
    rw [live_book, liveBids, hwindow, hresting]
    rfl
  rw [hnone] at hb
  exact absurd hb (Multiset.notMem_zero b)

theorem permitted_drainLadder {status : Status} {shown : Option Price} {supply : Qty}
    {reason : RejectReason} (hreason : reason = .unfilled ∨ reason = .notLive)
    (hlive : s.resting.bids ≠ [] → status = .live) (h : s.book.Keyed) :
    Account.Permitted config (s.showing status shown supply []) (s.drainLadder reason).2 := by
  rw [← s.holding_ladder] at h
  refine permitted_turnAway_loop (Or.inr hreason) RestingBid.live (fun _ _ ↦ rfl)
    (fun b hb ↦ hlive ?_) h
  exact List.ne_nil_of_mem (PriceLadder.drainAll_perm.mem_iff.mp hb)

/-- **A clearing keeps the rules**: the fills it moves, the bids it turns away, and only then the
price. -/
theorem permitted_clear (hlive : s.status = .live) (h : s.book.Keyed)
    (hids : (s.fills.map Fill.id).Nodup) (hprice : ∀ f ∈ s.fills, price ≤ f.price)
    (hwindow : s.window = none) (hfloor : config.floorPrice ≤ price)
    (hspent : s.supplyRemaining.val = 0 ∨ price = config.floorPrice)
    (hsold : sold s.fills < 2 ^ 64) :
    Account.Permitted config s.account (s.clear price).2 := by
  have hkeyed' : (s.clear price).1.book.Keyed :=
    (moves_clear le_rfl hprice : Book.Moves _ .tick _ _).keeps (fun _ _ h hm ↦ h.move hm) h
  rw [← s.holding_fills price] at h
  have hkeyed := (moves_repriceFill le_rfl hprice _ : Book.Moves _ .tick _ _).keeps
    (fun _ _ h hm ↦ h.move hm) h
  have hreprice := told_repriceFill_loop .live s.clearingPrice s.supplyRemaining h hids hprice
  have hdrain := told_drainLadder .live s.clearingPrice s.supplyRemaining
    (by decide : RejectReason.unfilled ≠ .unknownBid) hkeyed
  have hstart : s.account =
      { s with status := .cleared, clearingPrice := some price, fills := [] }.showing .live
        s.clearingPrice s.supplyRemaining s.fills := by
    rw [← hlive]
    rfl
  have hlast : ((s.clear price).1.showing .live s.clearingPrice s.supplyRemaining []).Permits config
      (.cleared price (s.clear price).1.totalFilled (s.clear price).1.supplyRemaining) := by
    have hbare := s.bare_clear price
    have hfills := congrArg AuctionState.fills hbare
    have hfills : (s.clear price).1.fills = s.fills.map (Fill.at price) := hfills
    have hsupply := congrArg AuctionState.supplyRemaining hbare
    have hsupply : (s.clear price).1.supplyRemaining = s.supplyRemaining := hsupply
    have hresting := congrArg AuctionState.resting hbare
    have hresting : (s.clear price).1.resting = PriceLadder.new := hresting
    have hnone := congrArg AuctionState.window hbare
    have hnone : (s.clear price).1.window = s.window := hnone
    refine ⟨rfl, settled_of_idle hkeyed' (hnone.trans hwindow) (by rw [hresting]; rfl) rfl,
      fun f hf ↦ ?_, ?_, hsupply, ?_⟩
    · have hf : f ∈ (s.clear price).1.fills ++ [] := hf
      rw [List.append_nil, hfills] at hf
      obtain ⟨g, -, rfl⟩ := List.mem_map.mp hf
      rfl
    · show _ = sold ((s.clear price).1.fills ++ [])
      rw [List.append_nil, val_totalFilled, hfills, sold_map_at]
      omega
    · rwa [hsupply]
  rw [clear, Emit.andThen_snd, Emit.andThen_snd, hstart]
  refine Audit.permitted_append.mpr ⟨permitted_repriceFill_loop hfloor h hids hprice, ?_⟩
  rw [hreprice]
  refine Audit.permitted_append.mpr ⟨permitted_drainLadder (Or.inl rfl) (fun _ ↦ rfl) hkeyed, ?_⟩
  rw [hdrain]
  exact Audit.permitted_singleton.mpr hlast

theorem fills_of_clear (h : (s.clear price).1.Tallied) :
    (s.fills.map Fill.id).Nodup ∧ sold s.fills < 2 ^ 64 := by
  have hfills := congrArg AuctionState.fills (s.bare_clear price)
  have hfills : (s.clear price).1.fills = s.fills.map (Fill.at price) := hfills
  have hconserved := h.conserved
  have hlt := (s.clear price).1.config.totalSupply.val_lt
  rw [hfills, sold_map_at] at hconserved
  refine ⟨?_, by omega⟩
  rw [← map_id_clear]
  exact h.nodup

/-- **A flush keeps the rules**, if the window it settles is ripe. -/
theorem permitted_flushWindow {t : Nanos} (h : PricedAt t s) (hkeyed : s.book.Keyed)
    (htallied : s.Tallied) (hripe : ∀ w, s.window = some w → s.status = .live → s.Ripe w) :
    Account.Permitted s.config s.account s.flushWindow.2 := by
  have htallied' := htallied.flushWindow
  rcases s.flushWindow_cases with ⟨-, hf⟩ | ⟨w, hw, hlive, -⟩ | ⟨w, hw, hlive, hf⟩
  · rw [hf]
    exact Audit.permitted_nil _
  · rw [(h.idle hlive).1] at hw
    cases hw
  · have hready := hripe w hw hlive
    have hfloor : s.config.floorPrice ≤ w.price :=
      (AuctionConfig.floor_le_priceAt s.now).trans hready.priceAt_le
    have hsettling := told_settling h hkeyed hw
    have hkeyed' : (s.settled w).book.Keyed :=
      (moves_settled h hw hready : Book.Moves _ .tick _ _).keeps
        (fun _ _ h hm ↦ h.move hm) hkeyed
    have hsum : ((allocations w.bids s.supplyRemaining).map Prod.snd).sum +
        (s.supplyAfter w).val = s.supplyRemaining.val := sum_allocations w.bids s.supplyRemaining
    have hloop : Account.Permitted s.config s.account (s.settling w).2 := by
      have hstart : s.account =
          { s with window := none, supplyRemaining := s.supplyAfter w }.showing .live
            s.clearingPrice (U64.saturate (((allocations w.bids s.supplyRemaining).map
              Prod.snd).sum + (s.supplyAfter w).val)) [] := by
        rw [hsum, U64.saturate_val, ← hlive, ← s.showing_self]
        rfl
      rw [← s.holding_window (s.supplyAfter w) hw
        (allocations_bids_perm w.bids s.supplyRemaining), List.map_map] at hkeyed
      rw [hstart]
      refine permitted_settle_loop hfloor hkeyed (fun ba hba ↦ ?_)
        (hsum.trans_lt s.supplyRemaining.val_lt) htallied.next hready.below
      exact ⟨h.covered w hw ba.1 (mem_of_mem_allocations hba), alloc_le_qty hba, fun hpos hex ↦
        alloc_eq_qty_of_not_exhausted hba hpos (Bool.eq_false_iff.mpr (of_decide_eq_false hex))⟩
    rw [hf] at htallied' ⊢
    rw [Emit.andThen_snd]
    refine Audit.permitted_append.mpr ⟨hloop, ?_⟩
    rw [hsettling]
    by_cases hex : s.Exhausts w
    · rw [Emit.andThen_fst, if_pos hex] at htallied'
      rw [if_pos hex]
      have hbare := s.bare_settled w
      have hstatus := congrArg AuctionState.status hbare
      have hwindow := congrArg AuctionState.window hbare
      have hsupply := congrArg AuctionState.supplyRemaining hbare
      have hsupply : (s.settled w).supplyRemaining = s.supplyAfter w := hsupply
      obtain ⟨hids, hsold⟩ := fills_of_clear (s := s.settled w) htallied'
      refine permitted_clear (hstatus.trans hlive) hkeyed' hids
        (fun f hf ↦ price_le_of_mem_settled hready hf) hwindow hfloor (Or.inl ?_) hsold
      rw [hsupply]
      exact supplyAfter_eq_zero hex
    · rw [if_neg hex]
      exact Audit.permitted_nil _

/-- **Cancelling keeps the rules**: the bids it turns away, and only then the status. -/
theorem permitted_onCancel (hpriced : s.Priced) (h : s.book.Keyed)
    (hopen : s.status.isTerminal = false) :
    Account.Permitted config s.account s.onCancel.2 := by
  have hphase : s.Phase .cancel s.onCancel := .cancel hopen rfl
  have hkeyed' : s.onCancel.1.book.Keyed :=
    (hphase.moves hpriced).keeps (fun _ _ h hm ↦ h.move hm) h
  -- An auction that has bids is live.
  have hwaiting : ∀ b, b ∈ (s.window.map OpenWindow.bids).getD [] → s.status = .live := by
    intro b hb
    by_contra hidle
    rw [(hpriced.idle hidle).1] at hb
    exact absurd hb List.not_mem_nil
  have hladder : s.resting.bids ≠ [] → s.status = .live := fun hbids ↦
    by_contra fun hidle ↦ hbids (hpriced.idle hidle).2
  rw [← s.holding_cancelled] at h
  have hkeyed := (moves_forEach (f := turnAwayPending .notLive) PendingBid.live _
    (fun b _ s bids ↦ move_turnAway .notLive b.live) _ : Book.Moves 0 .tick _ _).keeps
      (fun _ _ h hm ↦ h.move hm) h
  have hloop := told_turnAway_loop s.status s.clearingPrice s.supplyRemaining
    (by decide : RejectReason.notLive ≠ .unknownBid) PendingBid.live
    (fun b u ↦ (rfl : u.turnAwayPending .notLive b = _)) h
  have hdrain := told_drainLadder s.status s.clearingPrice s.supplyRemaining
    (by decide : RejectReason.notLive ≠ .unknownBid) hkeyed
  have hresting : (Emit.forEach (turnAwayPending .notLive)
      ((s.window.map OpenWindow.bids).getD [])
      { s with status := .cancelled, window := none }).1.resting = s.resting := by
    have h := congrArg AuctionState.resting (bare_turnAwayPending_loop
      (s := { s with status := .cancelled, window := none }) .notLive
      ((s.window.map OpenWindow.bids).getD []))
    exact h
  have hlast : (s.onCancel.1.showing s.status s.clearingPrice s.supplyRemaining []).Permits config
      .cancelled := by
    have hbare := bare_onCancel hopen
    have hnone := congrArg AuctionState.window hbare
    have hempty := congrArg AuctionState.resting hbare
    have hempty : s.onCancel.1.resting = PriceLadder.new := hempty
    exact ⟨hopen, settled_of_idle hkeyed' hnone (by rw [hempty]; rfl) rfl⟩
  have hstart : s.account = { s with status := .cancelled, window := none }.showing s.status
      s.clearingPrice s.supplyRemaining [] := s.showing_self.symm
  rw [onCancel, if_neg (by rw [hopen]; exact Bool.false_ne_true)] at hlast ⊢
  rw [Emit.andThen_snd, Emit.andThen_snd, hstart]
  refine Audit.permitted_append.mpr ⟨permitted_turnAway_loop (Or.inr (Or.inr rfl)) PendingBid.live
    (fun b u ↦ (rfl : u.turnAwayPending .notLive b = _)) hwaiting h, ?_⟩
  rw [hloop]
  refine Audit.permitted_append.mpr ⟨permitted_drainLadder (Or.inr rfl) (fun hbids ↦ ?_) hkeyed, ?_⟩
  · rw [hresting] at hbids
    exact hladder hbids
  · rw [hdrain]
    exact Audit.permitted_singleton.mpr hlast

/-! ## Every command -/

/-- **Every phase keeps the rules.** -/
theorem Spoken.permitted (h : s.Spoken) (hphase : s.Phase cmd r) :
    Account.Permitted s.config s.account r.2 := by
  obtain ⟨⟨hpriced, hkeyed, htallied⟩, hshelved⟩ := h
  cases hphase with
  | duplicate key outcome hkey => exact Audit.permitted_singleton.mpr hkey
  | unknown key hkey => exact Audit.permitted_singleton.mpr (Or.inl ⟨hkey, by decide⟩)
  | refuse key reason hkey hreason => exact Audit.permitted_singleton.mpr (Or.inl ⟨hkey, hreason.1⟩)
  | uncovered participant key price qty hkey =>
    exact Audit.permitted_singleton.mpr (Or.inl ⟨hkey, by decide⟩)
  | queue seq participant key qty expected _ hkey hqty hlive =>
    refine Audit.permitted_singleton.mpr ⟨hlive, hkey, hqty,
      AuctionConfig.floor_le_windowPrice _, fun g hg ↦ ?_⟩
    have hreached := hpriced.fills g hg
    rw [reached_eq_priceAt hpriced hlive] at hreached
    exact (AuctionConfig.windowPrice_le_priceAt _).trans hreached
  | rest seq participant key qty limit _ hkey hqty hlive hlimit =>
    refine Audit.permitted_singleton.mpr ⟨hlive, hkey, hqty, fun g hg ↦ ?_⟩
    have hreached := hpriced.fills g hg
    rw [reached_eq_priceAt hpriced hlive] at hreached
    exact hlimit.trans hreached
  | withdraw participant key bid hbid =>
    obtain ⟨hkey, -, hperm⟩ := PriceLadder.remove_eq_some hbid
    have hmem : bid ∈ s.resting.bids := hperm.mem_iff.mpr List.mem_cons_self
    refine Audit.permitted_singleton.mpr ⟨?_, hkey ▸ hshelved bid hmem⟩
    by_contra hidle
    rw [(hpriced.idle hidle).2] at hmem
    exact absurd hmem List.not_mem_nil
  | fund => exact Audit.permitted_singleton.mpr trivial
  | «open» hpending =>
    rw [onOpen, if_pos hpending]
    exact Audit.permitted_singleton.mpr ⟨hpending, rfl, rfl⟩
  | trigger => exact Audit.permitted_nil _
  | flush hlive hwhen =>
    exact permitted_flushWindow hpriced hkeyed htallied fun w hw _ ↦ hpriced.ripe hw hlive hwhen
  | floor hlive hfloor hwindow =>
    have hsold : sold s.fills < 2 ^ 64 := by
      have hconserved := htallied.conserved
      have hlt := s.config.totalSupply.val_lt
      omega
    refine permitted_clear hlive hkeyed htallied.nodup (fun f hf ↦ ?_) hwindow le_rfl
      (Or.inr rfl) hsold
    have hreached := hpriced.fills f hf
    rw [reached_eq_priceAt hpriced hlive] at hreached
    exact (AuctionConfig.floor_le_priceAt s.now).trans hreached
  | cancel hopen => exact permitted_onCancel hpriced hkeyed hopen

theorem Spoken.close (h : s.Spoken) (seq : Seq) (ts : Nanos) :
    ((s.stamp seq ts).closeElapsedWindow (s.stamp seq ts).now).1.Spoken ∧
      Account.Permitted s.config s.account
        ((s.stamp seq ts).closeElapsedWindow (s.stamp seq ts).now).2 := by
  have hclosed := (h.sound.close seq ts).1
  have hbefore := h.sound.priced.stamp seq ts
  have hkeyed : (s.stamp seq ts).book.Keyed := h.sound.keyed
  have htallied : (s.stamp seq ts).Tallied := h.sound.tallied
  have hshelved : (s.stamp seq ts).Shelved := h.shelved
  have haccount : s.account = (s.stamp seq ts).account := rfl
  have hconfig : s.config = (s.stamp seq ts).config := rfl
  rw [haccount, hconfig]
  generalize s.stamp seq ts = u at hclosed hbefore hkeyed htallied hshelved ⊢
  have hmoves : Book.Moves _ .tick _ _ := hbefore.moves
  obtain ⟨t, -, hpriced⟩ := hbefore
  rcases u.closeElapsedWindow_cases u.now with ⟨heq, -⟩ | ⟨w, hw, helapsed, heq⟩
  · rw [heq] at hclosed ⊢
    exact ⟨⟨hclosed, hshelved⟩, Audit.permitted_nil _⟩
  · refine ⟨⟨hclosed, hshelved.of_subset hmoves hclosed.keyed ?_⟩, ?_⟩
    · rw [heq]
      exact u.resting_flushWindow_subset
    · rw [heq]
      refine permitted_flushWindow hpriced hkeyed htallied fun w' hw' hlive ↦ ?_
      rw [hw] at hw'
      cases hw'
      exact hpriced.ripe_of_elapsed hw hlive helapsed

/-- **Every command keeps the rules.** -/
theorem Spoken.step {rec : LogRecord} {s' : AuctionState} {o : List Event} (h : s.Spoken)
    (hstep : s.step rec = some (s', o)) :
    s'.Spoken ∧ Account.Permitted s.config s.account o := by
  obtain ⟨-, hadvance⟩ := step_eq_some hstep
  obtain ⟨t, hsteps, heq⟩ := s.advance_eq rec.seq rec.ts rec.cmd
  obtain ⟨hclosed, hpermitted⟩ := h.close rec.seq rec.ts
  have hconfig := (closeElapsedWindow_frame (s.stamp rec.seq rec.ts) (s.stamp rec.seq rec.ts).now).1
  have hclose := (h.sound.close rec.seq rec.ts).2
  obtain ⟨hspoken, hrest⟩ := hsteps.rel (P := fun u ↦ u.Spoken ∧ u.config = s.config)
    (M := fun u v ↦ Account.Permitted s.config u.account v.2 ∧
      v.2.foldl Account.record u.account = v.1.account)
    (fun _ ↦ ⟨Audit.permitted_nil _, rfl⟩)
    (fun u v v' hv hv' ↦ by
      rw [List.foldl_append, hv.2, hv'.2]
      exact ⟨Audit.permitted_append.mpr ⟨hv.1, hv.2.symm ▸ hv'.1⟩, rfl⟩)
    (fun u v hu hv ↦ ⟨⟨hu.1.phase hv, hv.frame.1.trans hu.2⟩, hu.2 ▸ hu.1.permitted hv,
      hu.1.sound.told hv⟩) ⟨hclosed, hconfig⟩
  rw [hadvance] at heq
  cases heq
  exact ⟨hspoken.1, Audit.permitted_append.mpr ⟨hpermitted, hclose.symm ▸ hrest.1⟩⟩

end AuctionState

theorem run_spoken {config : AuctionConfig} {tr : List Transition} {s : AuctionState}
    (hrun : Run config tr s) :
    s.Spoken ∧ (tr.flatMap fun t ↦ t.out).foldl Account.record (Account.start config) = s.account ∧
      Account.Permitted config (Account.start config) (tr.flatMap fun t ↦ t.out) := by
  induction hrun with
  | nil => exact ⟨AuctionState.spoken_new config, rfl, Audit.permitted_nil _⟩
  | @snoc tr s s' r o hrun hstep ih =>
    obtain ⟨hspoken, htold, hpermitted⟩ := ih
    obtain ⟨hspoken', hnext⟩ := hspoken.step hstep
    have haccount := (hspoken.sound.step hstep).2
    rw [run_config hrun, ← htold] at hnext
    rw [List.flatMap_append, List.flatMap_singleton, List.foldl_append, htold]
    exact ⟨hspoken', haccount, Audit.permitted_append.mpr ⟨hpermitted, hnext⟩⟩

/-- **The event stream keeps its rules**: in every run, every event is one that a reader of the
events before it, and of nothing else, has to expect. -/
theorem stream_permitted {config : AuctionConfig} {tr : List Transition} {s : AuctionState}
    (hrun : Run config tr s) {before after : List Event} {e : Event}
    (hsplit : (tr.flatMap fun t ↦ t.out) = before ++ e :: after) :
    (before.foldl Account.record (Account.start config)).Permits config e :=
  Audit.permitted_iff.mp (run_spoken hrun).2.2 before e after hsplit

/-- Ten units sold in two fills, one moved down, one bid turned away, and only then the clearing. -/
theorem stream_permitted_sample :
    ((((play (.sample 0) sampleRecords).1.flatMap fun t ↦ t.out).take 10).foldl Account.record
        (Account.start (.sample 0))).Permits (.sample 0)
      (.cleared (I64.lit 900) (U64.lit 10) 0) := by
  have hsplit : ((play (.sample 0) sampleRecords).1.flatMap fun t ↦ t.out) =
      ((play (.sample 0) sampleRecords).1.flatMap fun t ↦ t.out).take 10 ++
        .cleared (I64.lit 900) (U64.lit 10) 0 :: [] := by decide
  exact stream_permitted (run_play (.sample 0) sampleRecords) hsplit

end DutchAuction
