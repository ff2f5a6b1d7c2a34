import DutchAuction.Core.Final
import DutchAuction.Core.Ledger
import DutchAuction.Core.Supply

/-!
# Cancelling an auction

A cancellation finds bids in two places, the window and the ladder, and settles an elapsed window
first. Between them the two steps answer every bid that was live when the command arrived, each
exactly once: the keys they answer are a permutation of the keys that were live.

The fills of earlier windows it leaves as they are, with what they cost still committed. A cancelled
auction settles nothing, so nothing takes those commitments off again, and what every participant
has committed at the end is what the fills that were there cost them. -/

namespace DutchAuction

/-- The key that an event is an answer to. -/
def Event.key? : Event → Option IdempotencyKey
  | .queued key _ _ _ => some key
  | .rested key _ _ _ => some key
  | .restingCancelled key _ _ => some key
  | .filled fill => some fill.key
  | .rejected key _ => some key
  | .duplicate key _ => some key
  | .opened _ _ => none
  | .collateralSet _ _ => none
  | .repriced _ _ _ => none
  | .cleared _ _ _ => none
  | .cancelled => none

/-- The command of this transition is what cancels the auction. -/
structure Cancels (t : Transition) : Prop where
  cmd : t.input.cmd = .cancel
  runs : (t.pre.entry t.input).status.isTerminal = false

namespace AuctionState

variable {s s' : AuctionState}

/-! ## Who is answered

A loop that answers each bid it holds once answers their keys in order, so who is answered by a
flush, a drain or a cancellation is read off the bids it started from. -/

theorem keys_forEach {α : Type*} {f : α → AuctionState → AuctionState × List Event}
    {key : α → IdempotencyKey} (pass : ∀ a s, (f a s).2.filterMap Event.key? = [key a]) (l : List α)
    (s : AuctionState) : (Emit.forEach f l s).2.filterMap Event.key? = l.map key := by
  induction l generalizing s with
  | nil => rfl
  | cons a l ih => rw [Emit.forEach_cons_snd, List.filterMap_append, pass, ih, List.map_cons]; rfl

theorem keys_settle (price : Price) (exhausted : Bool) (ba : PendingBid × ℕ) (s : AuctionState) :
    (s.settle price exhausted ba).2.filterMap Event.key? = [ba.1.key] := by
  unfold settle
  dsimp only
  split_ifs
  · rfl
  · rfl

theorem keys_turnAwayPending (reason : RejectReason) (b : PendingBid) (s : AuctionState) :
    (s.turnAwayPending reason b).2.filterMap Event.key? = [b.key] := rfl

theorem keys_drainLadder (reason : RejectReason) (s : AuctionState) :
    ((s.drainLadder reason).2.filterMap Event.key?).Perm (s.resting.bids.map RestingBid.key) := by
  have hpass : ∀ (b : RestingBid) (s : AuctionState),
      (s.turnAwayResting reason b).2.filterMap Event.key? = [b.key] := fun _ _ ↦ rfl
  rw [drainLadder, keys_forEach hpass]
  exact PriceLadder.drainAll_perm.map _

/-- The keys of the bids in the window. -/
def windowKeys (s : AuctionState) : List IdempotencyKey :=
  ((s.window.map OpenWindow.bids).getD []).map PendingBid.key

theorem key_liveBids (s : AuctionState) :
    s.liveBids.map LiveBid.key = s.windowKeys ++ s.resting.bids.map RestingBid.key := by
  rw [liveBids, windowKeys, List.map_append, List.map_map, List.map_map]
  rfl

/-- **A flush that leaves the auction open answers the window**, and nobody else. -/
theorem keys_flushWindow (hopen : s.flushWindow.1.status.isTerminal = false) :
    (s.flushWindow.2.filterMap Event.key?).Perm s.windowKeys := by
  rcases s.flushWindow_cases with ⟨hw, hf⟩ | ⟨w, hw, -, hf⟩ | ⟨w, hw, hlive, hf⟩
  · rw [hf, windowKeys, hw]
    exact List.Perm.refl _
  · rw [hf, keys_forEach (keys_turnAwayPending .notLive), windowKeys, hw]
    exact List.Perm.refl _
  · have hbare := congrArg AuctionState.status (bare_flushWindow_live hw hlive)
    split_ifs at hbare with hexhausts
    · rw [bare_clear] at hbare
      have hcleared : s.flushWindow.1.status = .cleared := hbare
      rw [hcleared] at hopen
      cases hopen
    · rw [hf, Emit.andThen_snd, if_neg hexhausts, windowKeys, hw]
      have hloop : (s.settling w).2.filterMap Event.key? =
          (allocations w.bids s.supplyRemaining).map fun ba ↦ ba.1.key :=
        keys_forEach (keys_settle w.price _) _ _
      have hpairs : (allocations w.bids s.supplyRemaining).map (fun ba ↦ ba.1.key) =
          ((allocations w.bids s.supplyRemaining).map Prod.fst).map PendingBid.key := by
        rw [List.map_map]
        rfl
      have hskip : ((Emit.skip (s.settling w).1).2 : List Event) = [] := rfl
      rw [hskip, List.append_nil, hloop, hpairs]
      exact (allocations_bids_perm w.bids s.supplyRemaining).map PendingBid.key

/-- **A cancellation answers every live bid**, and nobody else. -/
theorem keys_onCancel (hopen : s.status.isTerminal = false) :
    (s.onCancel.2.filterMap Event.key?).Perm (s.liveBids.map LiveBid.key) := by
  have hbare := bare_turnAwayPending_loop (s := { s with status := .cancelled, window := none })
    .notLive ((s.window.map OpenWindow.bids).getD [])
  have hresting := congrArg AuctionState.resting hbare
  have hresting : (Emit.forEach (turnAwayPending .notLive)
      ((s.window.map OpenWindow.bids).getD [])
      { s with status := .cancelled, window := none }).1.resting = s.resting := hresting
  rw [onCancel, if_neg (by rw [hopen]; exact Bool.false_ne_true), Emit.andThen_snd,
    Emit.andThen_snd, List.filterMap_append, List.filterMap_append,
    keys_forEach (keys_turnAwayPending .notLive), key_liveBids]
  refine List.Perm.append_left _ ?_
  have hladder := keys_drainLadder .notLive (Emit.forEach (turnAwayPending .notLive)
    ((s.window.map OpenWindow.bids).getD []) { s with status := .cancelled, window := none }).1
  rw [hresting] at hladder
  exact (List.append_nil _).symm ▸ hladder

/-- **The command that cancels answers every bid that was live**, each once, and nobody else: those
of an elapsed window when it is settled, the rest when they are turned away. -/
theorem keys_cancels {r : LogRecord} {o : List Event} (hstep : s.step r = some (s', o))
    (hcmd : r.cmd = .cancel) (hopen : (s.entry r).status.isTerminal = false) :
    (o.filterMap Event.key?).Perm (s.liveBids.map LiveBid.key) := by
  have hanswer : s.answer r = (s.entry r).onCancel.2 := by
    unfold answer
    rw [hcmd]
    rfl
  have hcancel := keys_onCancel hopen
  rw [step_events hstep, List.filterMap_append, hanswer]
  have hstamped : (s.stamp r.seq r.ts).liveBids = s.liveBids := rfl
  rcases (s.stamp r.seq r.ts).closeElapsedWindow_cases (max r.ts s.now) with
    ⟨hnothing, -⟩ | ⟨w, -, -, hflush⟩
  · have hentry : s.entry r = s.stamp r.seq r.ts := congrArg Prod.fst hnothing
    rw [hentry, hstamped] at hcancel
    rw [hnothing, hentry]
    exact hcancel
  · have hentry : s.entry r = (s.stamp r.seq r.ts).flushWindow.1 := congrArg Prod.fst hflush
    rw [hentry] at hopen
    rw [hentry, key_liveBids, windowKeys, (flushWindow_fixed _).1, resting_flushWindow hopen]
      at hcancel
    rw [hflush, hentry, ← hstamped, key_liveBids]
    exact (keys_flushWindow hopen).append hcancel

/-! ## What cancels

A cancelled auction got there by one command, found by the step rule: nothing else leads to that
status, and after it the fills stay what they were. What is then left committed is what these fills
cost. -/

/-- **What becomes cancelled was cancelled by a command** that found the auction running. -/
theorem cancels_of_status {r : LogRecord} {o : List Event} (hstep : s.step r = some (s', o))
    (hstatus : s.status ≠ .cancelled) (hstatus' : s'.status = .cancelled) :
    Cancels ⟨s, r, o, s'⟩ := by
  have hclose : ∀ (u : AuctionState) (ts : Nanos), u.status ≠ .cancelled →
      (u.closeElapsedWindow ts).1.status ≠ .cancelled := by
    intro u ts hu
    rcases u.status_closeElapsedWindow ts with hsame | ⟨-, hcleared⟩
    · rw [hsame]
      exact hu
    · rw [hcleared]
      exact fun h ↦ Status.noConfusion h
  have hcmd : r.cmd = .cancel := by
    by_contra hne
    refine step_keeps (P := fun u : AuctionState ↦ u.status ≠ .cancelled)
      (J := fun u : AuctionState ↦ u.status ≠ .cancelled) hstatus id (fun u hu ↦ hclose u u.now hu)
      (fun u v hu hv ↦ ?_) hstep hstatus'
    rcases hv.status_cases with hsame | ⟨-, hlive⟩ | ⟨-, hcleared⟩ | ⟨hcancel, -⟩
    · rw [hsame]
      exact hu
    · rw [hlive]
      exact fun h ↦ Status.noConfusion h
    · rw [hcleared]
      exact fun h ↦ Status.noConfusion h
    · exact absurd hcancel hne
  refine ⟨hcmd, Bool.eq_false_iff.mpr fun hterm ↦ ?_⟩
  have hpost := step_entry hstep
  have hhandle : handle r.seq (max r.ts s.now) r.cmd (s.entry r) = (s.entry r).onCancel := by
    rw [hcmd]
    rfl
  rw [hhandle, onCancel, if_pos hterm] at hpost
  rw [hpost] at hstatus'
  exact hclose (s.stamp r.seq r.ts) _ hstatus hstatus'

theorem fills_of_cancels {r : LogRecord} {o : List Event} (hstep : s.step r = some (s', o))
    (hcancels : Cancels ⟨s, r, o, s'⟩) :
    s'.status = .cancelled ∧ s'.fills = (s.entry r).fills := by
  have hpost := step_entry hstep
  have hcmd : r.cmd = .cancel := hcancels.cmd
  have hhandle : handle r.seq (max r.ts s.now) r.cmd (s.entry r) = (s.entry r).onCancel := by
    rw [hcmd]
    rfl
  rw [hhandle] at hpost
  have hbare := bare_onCancel (s := s.entry r) hcancels.runs
  have hstatus := congrArg AuctionState.status hbare
  have hfills := congrArg AuctionState.fills hbare
  rw [hpost]
  exact ⟨hstatus, hfills⟩

end AuctionState

variable {config : AuctionConfig} {tr : List Transition} {s : AuctionState}

theorem exists_cancels (hrun : Run config tr s) (hstatus : s.status = .cancelled) :
    ∃ t ∈ tr, Cancels t := by
  induction hrun with
  | nil => cases hstatus
  | @snoc tr s s' r o hrun hstep ih =>
    by_cases hbefore : s.status = .cancelled
    · obtain ⟨t, ht, hcancels⟩ := ih hbefore
      exact ⟨t, List.mem_append_left _ ht, hcancels⟩
    · exact ⟨_, List.mem_append_right _ (List.mem_singleton_self _),
        AuctionState.cancels_of_status hstep hbefore hstatus⟩

theorem fills_after_cancels (hrun : Run config tr s) {t : Transition} (ht : t ∈ tr)
    (hcancels : Cancels t) : s.status = .cancelled ∧ s.fills = (t.pre.entry t.input).fills := by
  obtain ⟨-, hstep⟩ := hrun.split ht
  obtain ⟨hstatus, hfills⟩ := AuctionState.fills_of_cancels hstep hcancels
  have hhistory := hrun.history (P := AuctionState.Priced)
    (R := fun s t ↦ s.status.isTerminal = true → s.Ended t) (fun s _ ↦ AuctionState.Ended.refl s)
    (fun s t u hst htu hterm ↦ (hst hterm).trans (htu (by rw [(hst hterm).status]; exact hterm)))
    (AuctionState.priced_new config)
    fun s r s' o hs hstep ↦ ⟨hs.step hstep, fun hterm ↦ hs.ended hterm hstep⟩
  have hended := (hhistory.2 t ht).2.2 (by rw [hstatus]; rfl)
  exact ⟨hended.status.trans hstatus, hended.fills.trans hfills⟩

/-- Every bid that was live when the command arrived is answered exactly once by it. -/
def AnsweredOnce (t : Transition) : Prop :=
  ∀ b ∈ t.pre.liveBids, (t.out.filterMap Event.key?).count b.key = 1

theorem answeredOnce_of_cancels (hrun : Run config tr s) {t : Transition} (ht : t ∈ tr)
    (hcancels : Cancels t) : AnsweredOnce t := by
  obtain ⟨⟨tr', -, hpre⟩, hstep⟩ := hrun.split ht
  have hperm := AuctionState.keys_cancels hstep hcancels.cmd hcancels.runs
  have hnodup : (t.pre.liveBids.map LiveBid.key).Nodup := by
    have hkeys := (run_keyed hpre).nodup
    rwa [AuctionState.live_book, Multiset.map_coe, Multiset.coe_nodup] at hkeys
  intro b hb
  rw [hperm.count_eq]
  exact List.count_eq_one_of_mem hnodup (List.mem_map_of_mem hb)

theorem forall_paid_eq_zero_iff {fills : List Fill} (hprice : ∀ f ∈ fills, 0 ≤ f.price.val)
    (hqty : ∀ f ∈ fills, 0 < f.qty.val) :
    (∀ p, paid p fills = 0) ↔ ∀ f ∈ fills, f.price.val = 0 := by
  have hcost : ∀ f ∈ fills, 0 ≤ f.cost := fun f hf ↦
    Int.mul_nonneg (hprice f hf) (Int.natCast_nonneg _)
  constructor
  · intro hpaid f hf
    have hmem : f.cost ∈ (fills.filter fun g ↦ g.participant = f.participant).map Fill.cost :=
      List.mem_map_of_mem (List.mem_filter.mpr ⟨hf, decide_eq_true rfl⟩)
    have hle : f.cost ≤ paid f.participant fills :=
      List.single_le_sum (fun x hx ↦ ?_) _ hmem
    · have hzero : f.price.val * f.qty.val = 0 :=
        le_antisymm (hle.trans (hpaid f.participant).le) (hcost f hf)
      have hpos := hqty f hf
      rcases Int.mul_eq_zero.mp hzero with h | h
      · exact h
      · omega
    · obtain ⟨g, hg, rfl⟩ := List.mem_map.mp hx
      exact hcost g (List.mem_filter.mp hg).1
  · intro hzero p
    refine List.sum_eq_zero fun x hx ↦ ?_
    obtain ⟨f, hf, rfl⟩ := List.mem_map.mp hx
    rw [Fill.cost, hzero f (List.mem_filter.mp hf).1, zero_mul]

/-- **What a cancelled auction returns.** Take a run with resting limits that are not negative and a
floor that is not, which ends cancelled. One of its commands cancelled it, and that command answered
every bid that was live, each exactly once. Nobody has anything committed at the end exactly when
every fill that it found, an elapsed window settled, was at a price of zero; so in particular when
nothing had filled. -/
theorem cancelled_returns_iff (hfloor : 0 ≤ config.floorPrice.val) (hrun : Run config tr s)
    (hlimits : ∀ t ∈ tr, t.input.cmd.RestsNonneg) (hstatus : s.status = .cancelled) :
    (∃ t ∈ tr, Cancels t) ∧ ∀ t ∈ tr, Cancels t → AnsweredOnce t ∧
      ((∀ p, (s.collateralOf p).committed.val = 0) ↔
        ∀ f ∈ (t.pre.entry t.input).fills, f.price.val = 0) := by
  have hexact : s.book.Exact :=
    run_book (C := Command.RestsNonneg) Book.exact_empty
      (fun _ _ _ hcmd h hmove ↦ h.move hfloor hcmd hmove) hrun hlimits
  have hidle := (run_priced hrun).idle fun hlive ↦ by rw [hlive] at hstatus; cases hstatus
  have hcommitted : ∀ p, (s.collateralOf p).committed.val = paid p s.fills := by
    intro p
    have hreserved := reserved_book s p
    rw [hidle.1, hidle.2] at hreserved
    exact (hexact.accounts p).trans (by rw [hreserved]; exact add_zero _)
  have htallied : s.Tallied :=
    hrun.invariant (AuctionState.tallied_new config) fun _ _ _ _ h h' ↦ h.step h'
  refine ⟨exists_cancels hrun hstatus,
    fun t ht hcancels ↦ ⟨answeredOnce_of_cancels hrun ht hcancels, ?_⟩⟩
  have hprice : ∀ f ∈ s.fills, 0 ≤ f.price.val := fun f hf ↦ (hexact.fills f hf).1
  rw [← (fills_after_cancels hrun ht hcancels).2,
    ← forall_paid_eq_zero_iff hprice htallied.positive]
  exact forall_congr' fun p ↦ by rw [hcommitted p]

/-- A bid rests and another waits in the window when the auction is cancelled, and both get their
collateral back. -/
theorem cancelled_returns_sample :
    ∃ s : AuctionState, s = (play (.sample (U64.lit 10000000000)) (script [(0, .open),
        (0, .setCollateral 1 (I64.lit 100000)), (0, .setCollateral 2 (I64.lit 100000)),
        (0, .submitBid 1 101 (U64.lit 5) (.resting (I64.lit 500))),
        (0, .submitBid 2 102 (U64.lit 5) (.take (I64.lit 1000))), (1, .cancel)])).2 ∧
      ∀ p, (s.collateralOf p).committed.val = 0 := by
  have hrun := run_play (.sample (U64.lit 10000000000)) (script [(0, .open),
    (0, .setCollateral 1 (I64.lit 100000)), (0, .setCollateral 2 (I64.lit 100000)),
    (0, .submitBid 1 101 (U64.lit 5) (.resting (I64.lit 500))),
    (0, .submitBid 2 102 (U64.lit 5) (.take (I64.lit 1000))), (1, .cancel)])
  obtain ⟨⟨t, ht, hcancels⟩, hiff⟩ :=
    cancelled_returns_iff (by decide) hrun (by decide) (by decide)
  refine ⟨_, rfl, (hiff t ht hcancels).2.mpr ?_⟩
  rw [← (fills_after_cancels hrun ht hcancels).2]
  decide

/-- Five units filled at 1000 before the cancellation stay committed after it. -/
theorem cancelled_keeps_fills_committed :
    ¬∀ (config : AuctionConfig) (tr : List Transition) (s : AuctionState),
      0 ≤ config.floorPrice.val → Run config tr s → (∀ t ∈ tr, t.input.cmd.RestsNonneg) →
      s.status = .cancelled → ∀ p, (s.collateralOf p).committed.val = 0 := by
  intro h
  have hcase := h (.sample 0) _ _ (by decide) (run_play (.sample 0) (script [(0, .open),
    (0, .setCollateral 1 (I64.lit 100000)),
    (0, .submitBid 1 101 (U64.lit 5) (.take (I64.lit 1000))), (1, .cancel)])) (by decide)
    (by decide) 1
  revert hcase
  decide

end DutchAuction
