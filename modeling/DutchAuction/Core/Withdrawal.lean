import DutchAuction.Core.Allotment
import DutchAuction.Core.Ledger
import DutchAuction.Core.Terms

/-!
# Withdrawing a resting bid

A bid that rests is on record as such until it fills, is refused or is withdrawn. Where it waits may
change before that: the clock drains a bid it has reached off the ladder and into the open window,
and the record does not say so.

A withdrawal looks on the ladder only. What it finds there it takes out for good, and gives back
what the bid had reserved. A bid in the window it does not find, and answers with the record, which
says that the bid rests. -/

namespace DutchAuction

namespace Book

variable {floor : Price} {cmd : Command} {B B' : Book} {k : IdempotencyKey}

/-- What each live bid has reserved fits a word. -/
def Payable (B : Book) : Prop :=
  ∀ b ∈ B.live, ∃ cost, Price.checkedMulQty b.price b.qty = some cost

theorem Payable.move (h : B.Payable) (hmove : Move floor cmd B B') : B'.Payable := by
  cases hmove with
  | accept b kind outcome cost _ _ _ _ _ hcost =>
    intro c hc
    rcases Multiset.mem_cons.mp hc with rfl | hc
    · exact ⟨cost, hcost⟩
    · exact h c hc
  | refuse => exact h
  | retire b rest outcome hlive =>
    intro c hc
    exact h c (hlive ▸ Multiset.mem_cons_of_mem hc)
  | fill b rest f hlive =>
    intro c hc
    exact h c (hlive ▸ Multiset.mem_cons_of_mem hc)
  | reprice => exact h
  | fund => exact h

/-- **A withdrawn key stays withdrawn.** No bid under it is left to fill or to refuse, and no fill
to reprice. -/
theorem Keyed.cancelled_move (h : B.Keyed) (hk : B.outcomes k = some .cancelled)
    (hmove : Move floor cmd B B') : B'.outcomes k = some .cancelled := by
  have hlive : ∀ b rest, B.live = b ::ₘ rest → k ≠ b.key := by
    rintro b rest hcons rfl
    have hb : b ∈ B.live := hcons ▸ Multiset.mem_cons_self b rest
    rcases (h.of_live hb).2.2 with heq | heq
    · rw [hk] at heq
      cases heq
    · rw [hk] at heq
      cases heq
  cases hmove with
  | accept b kind outcome cost _ _ _ hkey =>
    refine (Function.update_of_ne ?_ _ _).trans hk
    rintro rfl
    rw [hk] at hkey
    cases hkey
  | refuse key reason hkey =>
    refine (Function.update_of_ne ?_ _ _).trans hk
    rintro rfl
    rw [hk] at hkey
    cases hkey
  | retire b rest outcome hcons => exact (Function.update_of_ne (hlive b rest hcons) _ _).trans hk
  | fill b rest f hcons => exact (Function.update_of_ne (hlive b rest hcons) _ _).trans hk
  | reprice l₁ l₂ f price hfills =>
    refine (Function.update_of_ne ?_ _ _).trans hk
    rintro rfl
    have hf : f ∈ B.fills := hfills ▸ List.mem_append_right _ List.mem_cons_self
    have heq := (h.of_fill hf).2.2
    rw [hk] at heq
    cases heq
  | fund => exact hk

theorem Keyed.within_of_cancelled (h : B.Keyed) (hk : B.outcomes k = some .cancelled) :
    B.Within fun _ key _ ↦ key ≠ k := by
  refine ⟨fun b hb heq ↦ ?_, fun f hf heq ↦ ?_⟩
  · rcases (h.of_live hb).2.2 with hrecord | hrecord
    · rw [heq, hk] at hrecord
      cases hrecord
    · rw [heq, hk] at hrecord
      cases hrecord
  · have hrecord := (h.of_fill hf).2.2
    rw [heq, hk] at hrecord
    cases hrecord

end Book

namespace AuctionState

variable {s s' t : AuctionState} {b : LiveBid}

/-! ## What a withdrawal is for -/

/-- The bid has been withdrawn on the way from `t` to `s'`: the answer `es` says so, the record too,
the account has back exactly what the bid had reserved, nothing else has changed hands, and no fill
is ever made under the key. -/
structure Withdrawn (b : LiveBid) (t s' : AuctionState) (es : List Event) : Prop where
  answered : es = [.restingCancelled b.key b.participant b.qty]
  recorded : s'.outcome b.key = some .cancelled
  returned : (s'.collateralOf b.participant).committed.val =
    (t.collateralOf b.participant).committed.val - b.cost
  ceilings : ∀ p, (s'.collateralOf p).limit = (t.collateralOf p).limit
  window : s'.window = t.window
  ladder : ∃ x : RestingBid, x.live = b ∧ t.resting.bids.Perm (x :: s'.resting.bids) ∧
    s'.resting.bids.Sublist t.resting.bids
  others : (∀ k ≠ b.key, s'.outcome k = t.outcome k) ∧
    (∀ p ≠ b.participant, s'.collateralOf p = t.collateralOf p) ∧ s'.fills = t.fills
  never : ∀ tr u, Runs.Run AuctionState.step s' tr u →
    (∀ f ∈ u.fills, f.key ≠ b.key) ∧ ∀ x ∈ tr, ∀ f, .filled f ∈ x.out → f.key ≠ b.key

/-- **No fill is ever made under a withdrawn key.** -/
theorem Priced.never_filled {k : IdempotencyKey} {tr : List Transition} {u : AuctionState}
    (h : s.Priced) (hkeyed : s.book.Keyed) (hk : s.outcome k = some .cancelled)
    (hrun : Runs.Run AuctionState.step s tr u) :
    (∀ f ∈ u.fills, f.key ≠ k) ∧ ∀ x ∈ tr, ∀ f, .filled f ∈ x.out → f.key ≠ k := by
  have hkept : u.Priced ∧ u.book.Keyed ∧ u.book.outcomes k = some .cancelled ∧
      ∀ x ∈ tr, ∀ f, .filled f ∈ x.out → f.key ≠ k := by
    induction hrun with
    | nil => exact ⟨h, hkeyed, hk, fun x hx ↦ absurd hx List.not_mem_nil⟩
    | snoc _ hstep ih =>
      obtain ⟨hpriced, hkeyed, hcancelled, htold⟩ := ih
      have hmoves := hpriced.moves hstep
      have hkept := hmoves.keeps
        (P := fun B ↦ B.Keyed ∧ B.outcomes k = some .cancelled)
        (fun B B' hB hmove ↦ ⟨hB.1.move hmove, hB.1.cancelled_move hB.2 hmove⟩)
        ⟨hkeyed, hcancelled⟩
      have hwithin := hpriced.within_step hkeyed (fun _ _ _ _ hne _ ↦ hne)
        (hkeyed.within_of_cancelled hcancelled) hstep fun p key qty kind price _ hnone _ heq ↦ by
          rw [heq] at hnone
          exact Option.some_ne_none _ (hcancelled.symm.trans hnone)
      refine ⟨hpriced.step hstep, hkept.1, hkept.2, fun x hx f hf ↦ ?_⟩
      rcases List.mem_append.mp hx with hx | hx
      · exact htold x hx f hf
      · rw [List.mem_singleton.mp hx] at hf
        exact (hwithin.2.filled f hf).2
  exact ⟨(hkept.2.1.within_of_cancelled hkept.2.2.1).fills, hkept.2.2.2⟩

/-! ## Where the withdrawal looks

The code searches the ladder and nothing else. A bid that has been drained into the open window is
on record as resting, is not found, and the withdrawal is answered with the record. -/

theorem live_of_remove (hkeyed : s.book.Keyed) (hb : b ∈ s.liveBids) {x : RestingBid}
    (hx : (s.resting.remove b.participant b.key).1 = some x) : x.live = b := by
  obtain ⟨hkey, -, hperm⟩ := PriceLadder.remove_eq_some hx
  have hmem : x.live ∈ s.book.live := by
    rw [live_book, liveBids]
    exact List.mem_append_right _ (List.mem_map_of_mem (hperm.mem_iff.mpr List.mem_cons_self))
  have hb : b ∈ s.book.live := by rwa [live_book]
  have hat : x.live ∈ s.book.liveAt b.key := Book.mem_liveAt.mpr ⟨hmem, hkey⟩
  rw [(hkeyed.of_live hb).1] at hat
  exact Multiset.mem_singleton.mp hat

/-- **A withdrawal finds the bid exactly when it is on the ladder.** -/
theorem remove_isSome_iff (hkeyed : s.book.Keyed) (hb : b ∈ s.liveBids) :
    (∃ x, (s.resting.remove b.participant b.key).1 = some x) ↔
      b ∈ s.resting.bids.map RestingBid.live := by
  constructor
  · rintro ⟨x, hx⟩
    rw [← live_of_remove hkeyed hb hx]
    exact List.mem_map_of_mem
      ((PriceLadder.remove_eq_some hx).2.2.mem_iff.mpr List.mem_cons_self)
  · intro hmem
    obtain ⟨x, hx, rfl⟩ := List.mem_map.mp hmem
    cases hremove : (s.resting.remove x.live.participant x.live.key).1 with
    | some y => exact ⟨y, rfl⟩
    | none => exact absurd ⟨rfl, rfl⟩ ((PriceLadder.remove_eq_none hremove).2 x hx)

theorem onCancelResting_of_some {participant : ParticipantId} {key : IdempotencyKey}
    {x : RestingBid} (hx : (s.resting.remove participant key).1 = some x) :
    s.onCancelResting participant key = s.withdraw participant key x := by
  unfold onCancelResting withdraw
  rw [← Prod.eta (s.resting.remove participant key), hx]

theorem onCancelResting_of_none {participant : ParticipantId} {key : IdempotencyKey}
    {outcome : Outcome} (hnone : (s.resting.remove participant key).1 = none)
    (hkey : s.outcome key = some outcome) :
    s.onCancelResting participant key = (s, [.duplicate key outcome]) := by
  have hkey : s.outcomes key = some outcome := hkey
  unfold onCancelResting
  rw [← Prod.eta (s.resting.remove participant key), hnone, hkey]

theorem val_committed_release {c : Collateral} {price : Price} {qty : Qty} {cost : I64}
    (hcost : Price.checkedMulQty price qty = some cost) :
    (c.release price qty).committed.val = c.committed.val - price.val * qty.val ↔
      I64.InRange (c.committed.val - price.val * qty.val) := by
  rw [Collateral.release, hcost, Option.getD_some, I64.saturatingSub,
    (Price.checkedMulQty_eq_some.mp hcost).2, I64.val_saturate, I64.InRange]
  omega

/-- **A withdrawal that finds its bid withdraws it**, if the account can hold what comes back. -/
theorem Priced.withdrawn (h : t.Priced) (hkeyed : t.book.Keyed) {x : RestingBid}
    (hx : (t.resting.remove x.participant x.key).1 = some x)
    (hexact : ((accounts t.collateral x.participant).release x.limit x.qty).committed.val =
      (accounts t.collateral x.participant).committed.val - x.limit.val * x.qty.val) :
    Withdrawn x.live t (t.withdraw x.participant x.key x).1
      (t.withdraw x.participant x.key x).2 := by
  obtain ⟨-, -, hperm⟩ := PriceLadder.remove_eq_some hx
  have hphase : t.Phase .tick (t.withdraw x.participant x.key x) := .withdraw _ _ x hx
  have hkeyed' : (t.withdraw x.participant x.key x).1.book.Keyed :=
    (hphase.moves h).keeps (fun _ _ hB hmove ↦ hB.move hmove) hkeyed
  -- The record said that the bid rests, so nothing keeps it from saying that it is withdrawn.
  have hmem : x.live ∈ t.book.live := by
    rw [live_book, liveBids]
    exact List.mem_append_right _ (List.mem_map_of_mem (hperm.mem_iff.mpr List.mem_cons_self))
  have hrecorded : (t.withdraw x.participant x.key x).1.outcome x.key = some .cancelled := by
    have hmerge : mergeOutcome (t.outcomes x.key) .cancelled = .cancelled := by
      rcases (hkeyed.of_live hmem).2.2 with heq | heq
      · have heq : t.outcomes x.key = some (.queued x.qty) := heq
        rw [heq]
        rfl
      · have heq : t.outcomes x.key = some (.resting x.qty) := heq
        rw [heq]
        rfl
    exact (Function.update_self _ _ _).trans (congrArg some hmerge)
  have haccounts : accounts (t.withdraw x.participant x.key x).1.collateral =
      Function.update (accounts t.collateral) x.participant
        ((accounts t.collateral x.participant).release x.limit x.qty) :=
    accounts_release _ _ _ _
  have haccount : ∀ p, (t.withdraw x.participant x.key x).1.collateralOf p =
      Function.update (accounts t.collateral) x.participant
        ((accounts t.collateral x.participant).release x.limit x.qty) p := fun p ↦
    congrFun haccounts p
  refine ⟨rfl, hrecorded, ?_, fun p ↦ ?_, rfl, ⟨x, rfl, hperm, PriceLadder.bids_remove_sublist _ _⟩,
    ⟨fun k hk ↦ Function.update_of_ne hk _ _, fun p hp ↦ ?_, rfl⟩, fun tr u hrun ↦
    (h.phase hphase).never_filled hkeyed' hrecorded hrun⟩
  · have hself := haccount x.participant
    rw [Function.update_self] at hself
    exact (congrArg (fun c : Collateral ↦ c.committed.val) hself).trans hexact
  · rw [haccount p]
    by_cases hp : p = x.participant
    · rw [hp, Function.update_self]
      rfl
    · rw [Function.update_of_ne hp]
      rfl
  · have hne : p ≠ x.participant := hp
    rw [haccount p, Function.update_of_ne hne]
    rfl

/-- **A bid on record as resting is withdrawn exactly when it is on the ladder** and the account can
hold what comes back. -/
theorem Priced.withdrawn_iff (h : t.Priced) (hkeyed : t.book.Keyed) (hpayable : t.book.Payable)
    (hb : b ∈ t.liveBids) :
    Withdrawn b t (t.onCancelResting b.participant b.key).1
        (t.onCancelResting b.participant b.key).2 ↔
      b ∈ t.resting.bids.map RestingBid.live ∧
        I64.InRange ((t.collateralOf b.participant).committed.val - b.cost) := by
  obtain ⟨cost, hcost⟩ := hpayable b (by rwa [live_book])
  rw [← remove_isSome_iff hkeyed hb]
  cases hremove : (t.resting.remove b.participant b.key).1 with
  | none =>
    have hrecord : t.outcome b.key = some (.queued b.qty) ∨
        t.outcome b.key = some (.resting b.qty) :=
      (hkeyed.of_live (by rwa [live_book])).2.2
    constructor
    · intro hwithdrawn
      -- The answer quotes the record, whichever it is.
      rcases hrecord with heq | heq
      · have hanswer := hwithdrawn.answered
        rw [onCancelResting_of_none hremove heq] at hanswer
        cases hanswer
      · have hanswer := hwithdrawn.answered
        rw [onCancelResting_of_none hremove heq] at hanswer
        cases hanswer
    · rintro ⟨⟨x, hx⟩, -⟩
      cases hx
  | some x =>
    obtain rfl := live_of_remove hkeyed hb hremove
    rw [onCancelResting_of_some (x := x) hremove]
    have hrange : (((accounts t.collateral x.participant).release x.limit x.qty).committed.val =
        (accounts t.collateral x.participant).committed.val - x.limit.val * x.qty.val ↔ _) :=
      val_committed_release hcost
    constructor
    · intro hwithdrawn
      refine ⟨⟨x, rfl⟩, hrange.mp ?_⟩
      have hreturned := hwithdrawn.returned
      have haccounts := congrFun (accounts_release t.collateral x.participant x.limit x.qty)
        x.participant
      rw [Function.update_self] at haccounts
      have haccount : (t.withdraw x.participant x.key x).1.collateralOf x.participant =
          (accounts t.collateral x.participant).release x.limit x.qty := haccounts
      have hreturned : ((t.withdraw x.participant x.key x).1.collateralOf
        x.participant).committed.val = _ := hreturned
      rw [haccount] at hreturned
      exact hreturned
    · rintro ⟨-, hfits⟩
      exact h.withdrawn hkeyed hremove (hrange.mpr hfits)

end AuctionState

variable {config : AuctionConfig} {tr : List Transition} {s s' : AuctionState}

theorem run_payable (hrun : Run config tr s) : s.book.Payable :=
  run_book (C := fun _ ↦ True) (fun b hb ↦ absurd hb (Multiset.notMem_zero b))
    (fun _ _ _ _ h hmove ↦ h.move hmove) hrun fun _ _ ↦ trivial

/-- **When a resting bid can be withdrawn.** Take any state of a run and a withdrawal of a bid that
is live once an elapsed window has been closed, which every bid on record as resting is. The
withdrawal does what it is for exactly when the bid is on the ladder, not drained into the open
window, and the participant's account can hold what comes back to it. -/
theorem withdrawn_iff_on_ladder {r : LogRecord} {o : List Event} {b : LiveBid}
    (hrun : Run config tr s) (hstep : s.step r = some (s', o))
    (hcmd : r.cmd = .cancelResting b.participant b.key) (hb : b ∈ (s.entry r).liveBids) :
    AuctionState.Withdrawn b (s.entry r) s' (s.answer r) ↔
      b ∈ (s.entry r).resting.bids.map RestingBid.live ∧
        I64.InRange (((s.entry r).collateralOf b.participant).committed.val - b.cost) := by
  have hbefore := (run_priced hrun).stamp r.seq r.ts
  have hmoves : Book.Moves _ .tick s.book (s.entry r).book := hbefore.moves
  have hpriced : (s.entry r).Priced := hbefore.close
  have hkept := hmoves.keeps (P := fun B ↦ B.Keyed ∧ B.Payable)
    (fun B B' hB hmove ↦ ⟨hB.1.move hmove, hB.2.move hmove⟩) ⟨run_keyed hrun, run_payable hrun⟩
  have hpost := AuctionState.step_entry hstep
  have hanswer : s.answer r = (AuctionState.handle r.seq (max r.ts s.now) r.cmd (s.entry r)).2 :=
    rfl
  rw [hcmd] at hpost hanswer
  rw [hpost, hanswer]
  exact hpriced.withdrawn_iff hkept.1 hkept.2 hb

/-- The withdrawal of the first of the two bids that rest, a second after the clock has drained both
into the window. -/
def lateWithdrawal : LogRecord := ⟨U64.lit 6, U64.lit 7000000000, .cancelResting 1 101⟩

/-- Before the clock has moved, the second of them can be withdrawn. -/
theorem withdrawn_iff_on_ladder_sample :
    ∃ s s' : AuctionState, ∃ o,
      s = (play (.sample (U64.lit 10000000000)) (crowdedRecords.take 5)).2 ∧
      s.step ⟨U64.lit 5, 0, .cancelResting 2 102⟩ = some (s', o) ∧
      AuctionState.Withdrawn ⟨2, 102, U64.lit 5, I64.lit 940⟩
        (s.entry ⟨U64.lit 5, 0, .cancelResting 2 102⟩) s'
        (s.answer ⟨U64.lit 5, 0, .cancelResting 2 102⟩) :=
  ⟨_, _, _, rfl, rfl, (withdrawn_iff_on_ladder (b := ⟨2, 102, U64.lit 5, I64.lit 940⟩)
    (run_play (.sample (U64.lit 10000000000)) (crowdedRecords.take 5)) rfl rfl (by decide)).mpr
      ⟨by decide, by decide⟩⟩

/-- A bid in the open window rests by its record, and a withdrawal of it is answered with that
record. -/
theorem drained_bid_not_withdrawn :
    ¬∀ (config : AuctionConfig) (tr : List Transition) (s s' : AuctionState) (r : LogRecord)
      (o : List Event) (b : LiveBid) (q : Qty), Run config tr s → s.status = .live →
      s.step r = some (s', o) → r.cmd = .cancelResting b.participant b.key →
      b ∈ (s.entry r).liveBids → (s.entry r).outcome b.key = some (.resting q) →
      .restingCancelled b.key b.participant b.qty ∈ s.answer r ∧
        s'.outcome b.key = some .cancelled := by
  intro h
  have hcase := h _ _ _ _ lateWithdrawal _ ⟨1, 101, U64.lit 20, I64.lit 950⟩ (U64.lit 20)
    (run_play (.sample (U64.lit 10000000000)) crowdedRecords) (by decide) rfl rfl (by decide)
    (by decide)
  revert hcase
  decide

end DutchAuction
