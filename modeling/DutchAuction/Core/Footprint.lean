import DutchAuction.Core.Keys
import DutchAuction.Core.Supply

/-!
# The state never outgrows the log

No command opens an account for anybody it does not name, and only a bid puts a key on record. What
the handlers do besides, releasing, committing, filling and repricing, they do to bids and fills
that are there already. So the accounts of a state belong to the participants that the commands of
its run funded or that bid in it, and its records to the keys of their bids (`Within`,
`run_within`).

Every bid in flight and every fill has a key of its own, so there are no more of them together than
there were bids (`state_within_log`).
-/

namespace DutchAuction

/-- Whose account a command may open. -/
def Command.funds : Command → Option ParticipantId
  | .setCollateral participant _ => some participant
  | .submitBid participant _ _ _ => some participant
  | _ => none

/-- The key a command may put on record. -/
def Command.bids : Command → Option IdempotencyKey
  | .submitBid _ key _ _ => some key
  | _ => none

namespace AuctionState

/-- All accounts are those of participants in `A` and all records those of keys in `K`, and whatever
bids or has been filled is of such a participant and under such a key. -/
structure Within (A : Set ParticipantId) (K : Set IdempotencyKey) (s : AuctionState) : Prop where
  accounts : ∀ p, s.collateral p ≠ none → p ∈ A
  records : ∀ k, s.outcomes k ≠ none → k ∈ K
  window : ∀ w ∈ s.window, ∀ b ∈ w.bids, b.participant ∈ A ∧ b.key ∈ K
  resting : ∀ b ∈ s.resting.bids, b.participant ∈ A ∧ b.key ∈ K
  fills : ∀ f ∈ s.fills, f.participant ∈ A ∧ f.key ∈ K

variable {A : Set ParticipantId} {K : Set IdempotencyKey} {s : AuctionState}

theorem within_new (config : AuctionConfig) : (new config).Within A K where
  accounts _ h := absurd rfl h
  records _ h := absurd rfl h
  window _ h := absurd h (Option.not_mem_none _)
  resting _ h := absurd h List.not_mem_nil
  fills _ h := absurd h List.not_mem_nil

/-! ## The small moves

What is done to the account of a participant in `A`, or put on record, filed or filled under a key
in `K`, stays within the two. -/

theorem Within.account (h : s.Within A K) {p : ParticipantId} (hp : p ∈ A)
    (c : Option Collateral) :
    { s with collateral := Function.update s.collateral p c }.Within A K where
  accounts q hq := by
    by_cases heq : q = p
    · exact heq ▸ hp
    · have hsame : Function.update s.collateral p c q = s.collateral q :=
        Function.update_of_ne heq c s.collateral
      exact h.accounts q (hsame ▸ hq)
  records := h.records
  window := h.window
  resting := h.resting
  fills := h.fills

theorem Within.record (h : s.Within A K) {k : IdempotencyKey} (hk : k ∈ K) (o : Option Outcome) :
    { s with outcomes := Function.update s.outcomes k o }.Within A K where
  accounts := h.accounts
  records q hq := by
    by_cases heq : q = k
    · exact heq ▸ hk
    · have hsame : Function.update s.outcomes k o q = s.outcomes q :=
        Function.update_of_ne heq o s.outcomes
      exact h.records q (hsame ▸ hq)
  window := h.window
  resting := h.resting
  fills := h.fills

theorem Within.fill (h : s.Within A K) {f : Fill} (hf : f.participant ∈ A ∧ f.key ∈ K)
    (id : FillId) : { s with nextFillId := id, fills := s.fills ++ [f] }.Within A K where
  accounts := h.accounts
  records := h.records
  window := h.window
  resting := h.resting
  fills g hg := by
    rcases List.mem_append.mp hg with hg | hg
    · exact h.fills g hg
    · exact List.mem_singleton.mp hg ▸ hf

theorem Within.ladder (h : s.Within A K) {l : PriceLadder}
    (hl : ∀ b ∈ l.bids, b.participant ∈ A ∧ b.key ∈ K) : { s with resting := l }.Within A K where
  accounts := h.accounts
  records := h.records
  window := h.window
  resting := hl
  fills := h.fills

theorem Within.closed (h : s.Within A K) : { s with window := none }.Within A K where
  accounts := h.accounts
  records := h.records
  window _ hw := absurd hw (Option.not_mem_none _)
  resting := h.resting
  fills := h.fills

theorem Within.reserve (h : s.Within A K) {p : ParticipantId} (hp : p ∈ A) (price : Price)
    (qty : Qty) : (s.reserve p price qty).1.Within A K := by
  rw [AuctionState.reserve]
  cases Price.checkedMulQty price qty with
  | none => exact h
  | some cost =>
    dsimp only
    split_ifs
    · exact h.account hp _
    · exact h.account hp _

theorem Within.turnAway (h : s.Within A K) {p : ParticipantId} {k : IdempotencyKey}
    (hname : p ∈ A ∧ k ∈ K) (reason : RejectReason) (price : Price) (qty : Qty) :
    (s.turnAway reason p k price qty).1.Within A K :=
  (h.account hname.1 _).record hname.2 _

theorem Within.turnAwayPending (h : s.Within A K) (reason : RejectReason) {bids : List PendingBid}
    (hbids : ∀ b ∈ bids, b.participant ∈ A ∧ b.key ∈ K) :
    (Emit.forEach (AuctionState.turnAwayPending reason) bids s).1.Within A K :=
  Emit.forEach_keeps (fun b hb _ h ↦ h.turnAway (hbids b hb) reason _ _) h

theorem Within.drainLadder (h : s.Within A K) (reason : RejectReason) :
    (s.drainLadder reason).1.Within A K := by
  refine Emit.forEach_keeps (P := Within A K) (fun b hb t ht ↦ ht.turnAway ?_ reason _ _)
    (h.ladder fun b hb ↦ absurd hb List.not_mem_nil)
  exact h.resting b (PriceLadder.drainAll_perm.mem_iff.mp hb)

/-! ## Settling -/

theorem Within.repriceFill (h : s.Within A K) {f : Fill} (hf : f.participant ∈ A ∧ f.key ∈ K)
    (price : Price) : (s.repriceFill price f).1.Within A K := by
  have hrecord := h.record hf.2 ((s.outcomes f.key).map (Outcome.quoting price))
  rw [AuctionState.repriceFill]
  dsimp only
  split_ifs
  · exact hrecord.fill hf s.nextFillId
  · exact (hrecord.account hf.1 _).fill (f := { f with price := price }) hf s.nextFillId

theorem Within.clear (h : s.Within A K) (price : Price) : (s.clear price).1.Within A K := by
  have hbare : { s with status := .cleared, clearingPrice := some price, fills := [] }.Within A K :=
    { accounts := h.accounts
      records := h.records
      window := h.window
      resting := h.resting
      fills := fun f hf ↦ absurd hf List.not_mem_nil }
  exact (Emit.forEach_keeps (P := Within A K)
    (fun f hf t ht ↦ ht.repriceFill (h.fills f hf) price) hbare).drainLadder .unfilled

theorem Within.requeueRemainder (h : s.Within A K) (exhausted : Bool) {b : PendingBid}
    (hb : b.participant ∈ A ∧ b.key ∈ K) (alloc : Qty) :
    (s.requeueRemainder exhausted b alloc).Within A K := by
  rw [AuctionState.requeueRemainder]
  split
  · refine (h.account hb.1 _).ladder fun b' hb' ↦ ?_
    rcases PriceLadder.mem_bids_requeue hb' with rfl | hb'
    · exact hb
    · exact h.resting b' hb'
  · exact h

theorem Within.settle (h : s.Within A K) (price : Price) (exhausted : Bool) {ba : PendingBid × ℕ}
    (hb : ba.1.participant ∈ A ∧ ba.1.key ∈ K) : (s.settle price exhausted ba).1.Within A K := by
  rw [AuctionState.settle]
  dsimp only
  split_ifs
  · exact (h.account hb.1 _).record hb.2 _
  · refine Within.requeueRemainder (Within.record ?_ hb.2 _) exhausted hb _
    exact Within.fill (f := ⟨s.nextFillId, ba.1.seq, ba.1.participant, ba.1.key,
      U64.saturate ba.2, price⟩) ((h.account hb.1 _).account hb.1 _) hb _

theorem Within.flushWindow (h : s.Within A K) : s.flushWindow.1.Within A K := by
  rw [AuctionState.flushWindow]
  cases hw : s.window with
  | none => exact h
  | some w =>
    have hbids := h.window w hw
    dsimp only
    split_ifs
    · have hloop : ∀ (supply : Qty) (exhausted : Bool) (alloc : List ℕ),
          (Emit.forEach (AuctionState.settle w.price exhausted) ((byPriority w.bids).zip alloc)
            { s with window := none, supplyRemaining := supply }).1.Within A K := by
        intro supply exhausted alloc
        refine Emit.forEach_keeps (P := Within A K) (fun ba hba t ht ↦ ht.settle _ _ ?_) ?_
        · exact hbids _ ((byPriority_perm w.bids).mem_iff.mp (List.of_mem_zip hba).1)
        · exact ⟨h.accounts, h.records, h.closed.window, h.resting, h.fills⟩
      rw [matchWindow, Emit.andThen_fst]
      split_ifs
      · exact (hloop _ _ _).clear w.price
      · exact hloop _ _ _
    · exact h.closed.turnAwayPending .notLive hbids

theorem Within.closeElapsedWindow (h : s.Within A K) (ts : Nanos) :
    (s.closeElapsedWindow ts).1.Within A K := by
  rcases s.closeElapsedWindow_cases ts with ⟨heq, -⟩ | ⟨w, -, -, heq⟩
  · rwa [heq]
  · rw [heq]
    exact h.flushWindow

/-! ## Handlers -/

theorem Within.pushPending (h : s.Within A K) (index : U64) (price : Price) {b : PendingBid}
    (hb : b.participant ∈ A ∧ b.key ∈ K) : (s.pushPending index price b).Within A K where
  accounts := h.accounts
  records := h.records
  window := by
    rintro w ⟨rfl⟩ b' hb'
    rcases List.mem_append.mp hb' with hb' | hb'
    · cases hw : s.window with
      | none =>
        rw [hw] at hb'
        exact absurd hb' List.not_mem_nil
      | some w =>
        rw [hw] at hb'
        exact h.window w hw b' hb'
    · exact List.mem_singleton.mp hb' ▸ hb
  resting := h.resting
  fills := h.fills

theorem Within.enqueue (h : s.Within A K) (seq : Seq) {p : ParticipantId} {k : IdempotencyKey}
    (hname : p ∈ A ∧ k ∈ K) (qty : Qty) : (s.enqueue seq p k qty).1.Within A K :=
  ((h.reserve hname.1 _ qty).pushPending _ _ hname).record hname.2 _

theorem Within.shelve (h : s.Within A K) (seq : Seq) {p : ParticipantId} {k : IdempotencyKey}
    (hname : p ∈ A ∧ k ∈ K) (qty : Qty) (limit : Price) :
    (s.shelve seq p k qty limit).1.Within A K := by
  have hres := h.reserve hname.1 limit qty
  refine (hres.ladder fun b hb ↦ ?_).record hname.2 _
  rcases List.mem_cons.mp ((PriceLadder.bids_insert_perm _).mem_iff.mp hb) with rfl | hb
  · exact hname
  · exact hres.resting b hb

theorem Within.onTake (h : s.Within A K) (seq : Seq) {p : ParticipantId} {k : IdempotencyKey}
    (hname : p ∈ A ∧ k ∈ K) (qty : Qty) (expectedPrice : Price) :
    (s.onTake seq s.now p k qty expectedPrice).1.Within A K := by
  rcases lt_or_ge s.config.priceTolerance
    (I64.absDiff (s.config.priceAt s.now) expectedPrice) with hmoved | hnear
  · rw [onTake_moved seq p k qty hmoved]
    exact h.record hname.2 _
  · cases hres : (s.reserve p (s.config.windowBounds s.now).2 qty).2 with
    | false =>
      rw [onTake_uncovered seq k hnear hres]
      exact (h.reserve hname.1 _ qty).record hname.2 _
    | true =>
      rw [onTake_queued seq k hnear hres, Emit.andThen_fst]
      split_ifs
      · exact (h.enqueue seq hname qty).flushWindow
      · exact h.enqueue seq hname qty

theorem Within.onRest (h : s.Within A K) (seq : Seq) {p : ParticipantId} {k : IdempotencyKey}
    (hname : p ∈ A ∧ k ∈ K) (qty : Qty) (limit : Price) :
    (s.onRest seq s.now p k qty limit).1.Within A K := by
  rcases lt_or_ge (s.config.priceAt s.now) limit with habove | hlimit
  · rw [onRest_above seq p k qty habove]
    exact h.record hname.2 _
  · cases hres : (s.reserve p limit qty).2 with
    | false =>
      rw [onRest_uncovered seq k hlimit hres]
      exact (h.reserve hname.1 _ qty).record hname.2 _
    | true =>
      rw [onRest_rested seq k hlimit hres]
      exact h.shelve seq hname qty limit

theorem Within.onBid (h : s.Within A K) (seq : Seq) {p : ParticipantId} {k : IdempotencyKey}
    (hname : p ∈ A ∧ k ∈ K) (qty : Qty) (kind : BidKind) :
    (s.onBid seq s.now p k qty kind).1.Within A K := by
  unfold AuctionState.onBid
  cases s.outcomes k with
  | some outcome => exact h
  | none =>
    dsimp only
    split_ifs
    · exact h.record hname.2 _
    · exact h.record hname.2 _
    · cases kind with
      | take expectedPrice => exact h.onTake seq hname qty expectedPrice
      | resting limit => exact h.onRest seq hname qty limit

theorem Within.onCancelResting (h : s.Within A K) (p : ParticipantId) (k : IdempotencyKey) :
    (s.onCancelResting p k).1.Within A K := by
  rw [AuctionState.onCancelResting]
  split
  · rename_i bid resting hrem
    obtain ⟨hkey, hparticipant, hperm⟩ := PriceLadder.remove_eq_some (congrArg Prod.fst hrem)
    have hname : bid.participant ∈ A ∧ bid.key ∈ K :=
      h.resting bid (hperm.mem_iff.mpr List.mem_cons_self)
    rw [hkey, hparticipant] at hname
    have hrest : ∀ b ∈ resting.bids, b.participant ∈ A ∧ b.key ∈ K := fun b hb ↦ by
      rw [← show (s.resting.remove p k).2 = resting from congrArg Prod.snd hrem] at hb
      exact h.resting b (hperm.mem_iff.mpr (List.mem_cons_of_mem _ hb))
    exact ((h.ladder hrest).account hname.1 _).record hname.2 _
  · cases s.outcomes k with
    | some outcome => exact h
    | none => exact h

theorem Within.triggerResting (h : s.Within A K) : (s.triggerResting s.now).Within A K := by
  have hmem : ∀ b ∈ (s.resting.drainTriggered (s.config.priceAt s.now)).1 ++
      (s.resting.drainTriggered (s.config.priceAt s.now)).2.bids, b.participant ∈ A ∧ b.key ∈ K :=
    fun b hb ↦ h.resting b ((PriceLadder.bids_drainTriggered_perm _).mem_iff.mp hb)
  -- The drained bids go into the window one after another.
  suffices hpush : ∀ (bids : List RestingBid) (t : AuctionState),
      (∀ b ∈ bids, b.participant ∈ A ∧ b.key ∈ K) → t.Within A K →
        (bids.foldl (pushTriggered (s.config.windowBounds s.now).1
          (s.config.windowBounds s.now).2) t).Within A K by
    exact hpush _ _ (fun b hb ↦ hmem b (List.mem_append_left _ hb))
      (h.ladder fun b hb ↦ hmem b (List.mem_append_right _ hb))
  intro bids
  induction bids with
  | nil => exact fun t _ ht ↦ ht
  | cons b bids ih =>
    exact fun t hbids ht ↦ ih _ (fun b' hb' ↦ hbids b' (List.mem_cons_of_mem _ hb'))
      (ht.pushPending _ _ (hbids b List.mem_cons_self))

theorem Within.settleAtFloor (h : s.Within A K) : s.settleAtFloor.1.Within A K := by
  rw [AuctionState.settleAtFloor, Emit.andThen_fst]
  split_ifs
  · exact h.flushWindow.clear _
  · exact h.flushWindow

theorem Within.onTick (h : s.Within A K) : (s.onTick s.now).1.Within A K := by
  have htriggered := h.triggerResting
  have hfloor : ∀ t : AuctionState, t.Within A K →
      (if t.status.acceptsBids && t.config.schedule.atFloor s.now then t.settleAtFloor
        else (t, [])).1.Within A K := by
    intro t ht
    split_ifs
    · exact ht.settleAtFloor
    · exact ht
  rw [AuctionState.onTick]
  split_ifs
  · exact h
  · exact hfloor _ htriggered.flushWindow
  · exact hfloor _ htriggered

theorem Within.onCancel (h : s.Within A K) : s.onCancel.1.Within A K := by
  rw [AuctionState.onCancel]
  split_ifs
  · exact h
  · have hbids : ∀ b ∈ (s.window.map OpenWindow.bids).getD [], b.participant ∈ A ∧ b.key ∈ K := by
      cases hw : s.window with
      | none => exact fun b hb ↦ absurd hb List.not_mem_nil
      | some w => exact h.window w hw
    have hclosed : { s with status := .cancelled, window := none }.Within A K :=
      ⟨h.accounts, h.records, h.closed.window, h.resting, h.fills⟩
    exact (hclosed.turnAwayPending .notLive hbids).drainLadder .notLive

/-- **A handler names nobody but its command does.** -/
theorem Within.handle (h : s.Within A K) (seq : Seq) {cmd : Command}
    (hfunds : ∀ p ∈ cmd.funds, p ∈ A) (hbids : ∀ k ∈ cmd.bids, k ∈ K) :
    (handle seq s.now cmd s).1.Within A K := by
  cases cmd with
  | «open» =>
    show s.onOpen.1.Within A K
    rw [onOpen]
    split_ifs
    · exact ⟨h.accounts, h.records, h.window, h.resting, h.fills⟩
    · exact h
  | setCollateral participant limit => exact h.account (hfunds participant rfl) _
  | submitBid participant key qty kind =>
    exact h.onBid seq ⟨hfunds participant rfl, hbids key rfl⟩ qty kind
  | cancelResting participant key => exact h.onCancelResting participant key
  | tick => exact h.onTick
  | cancel => exact h.onCancel

theorem Within.step (h : s.Within A K) {r : LogRecord} {s' : AuctionState} {o : List Event}
    (hfunds : ∀ p ∈ r.cmd.funds, p ∈ A) (hbids : ∀ k ∈ r.cmd.bids, k ∈ K)
    (hstep : s.step r = some (s', o)) : s'.Within A K := by
  have hstamp : (s.stamp r.seq r.ts).Within A K :=
    ⟨h.accounts, h.records, h.window, h.resting, h.fills⟩
  rw [step_entry hstep, ← s.entry_now r]
  exact (hstamp.closeElapsedWindow _).handle r.seq hfunds hbids

end AuctionState

/-! ## Runs

With one bid or fill for each key, and a unit at least in every fill, the sizes of the lists are
bounded by the keys that were bid under and by the supply. -/

/-- The participants that a list of records funds or that bid in it. -/
def funded (records : List LogRecord) : List ParticipantId :=
  records.filterMap fun r ↦ r.cmd.funds

/-- The keys that are bid under in a list of records. -/
def bidKeys (records : List LogRecord) : List IdempotencyKey :=
  records.filterMap fun r ↦ r.cmd.bids

variable {config : AuctionConfig} {tr : List Transition} {s : AuctionState}

theorem run_within (hrun : Run config tr s) :
    s.Within {p | p ∈ funded (tr.map Runs.Transition.input)}
      {k | k ∈ bidKeys (tr.map Runs.Transition.input)} :=
  hrun.invariant_of
    (C := fun t ↦ (∀ p ∈ t.input.cmd.funds, p ∈ funded (tr.map Runs.Transition.input)) ∧
      ∀ k ∈ t.input.cmd.bids, k ∈ bidKeys (tr.map Runs.Transition.input))
    (AuctionState.within_new config) (fun _ _ _ _ h hstep hC ↦ h.step hC.1 hC.2 hstep)
    fun _ ht ↦ ⟨fun _ hp ↦ List.mem_filterMap.mpr ⟨_, List.mem_map_of_mem ht, hp⟩,
      fun _ hk ↦ List.mem_filterMap.mpr ⟨_, List.mem_map_of_mem ht, hk⟩⟩

theorem Book.Keyed.nodup_keys {s : AuctionState} (h : s.book.Keyed) :
    (s.liveBids.map LiveBid.key ++ s.fills.map Fill.key).Nodup := by
  have hlive := h.nodup
  rw [s.live_book, Multiset.map_coe, Multiset.coe_nodup] at hlive
  have hfills : (s.fills.map Fill.key).Nodup := by
    rw [List.nodup_iff_count_le_one]
    intro k
    have hk := h.length_fillsAt_le (k := k)
    rw [Book.fillsAt] at hk
    rw [List.count, List.countP_map, List.countP_eq_length_filter]
    exact hk
  refine List.nodup_append.mpr ⟨hlive, hfills, fun k hk k' hk' heq ↦ ?_⟩
  obtain ⟨b, hb, rfl⟩ := List.mem_map.mp hk
  obtain ⟨f, hf, rfl⟩ := List.mem_map.mp hk'
  have hmem : b ∈ s.book.liveAt f.key := by
    refine Book.mem_liveAt.mpr ⟨?_, heq⟩
    rw [s.live_book]
    exact hb
  rw [(h.of_fill hf).1] at hmem
  exact absurd hmem (Multiset.notMem_zero b)

theorem length_le_sold {fills : List Fill} (h : ∀ f ∈ fills, 0 < f.qty.val) :
    fills.length ≤ sold fills := by
  induction fills with
  | nil => exact le_rfl
  | cons f fills ih =>
    have hpos := h f List.mem_cons_self
    have hrest := ih fun g hg ↦ h g (List.mem_cons_of_mem f hg)
    rw [← List.singleton_append, sold_append, List.length_append, List.length_singleton]
    have hone : sold [f] = f.qty.val := List.sum_singleton
    omega

theorem length_liveBids_add_fills_le (hrun : Run config tr s) :
    s.liveBids.length + s.fills.length ≤
      (bidKeys (tr.map Runs.Transition.input)).dedup.length := by
  have hkeyed := run_keyed hrun
  have hsub : s.liveBids.map LiveBid.key ++ s.fills.map Fill.key ⊆
      (bidKeys (tr.map Runs.Transition.input)).dedup := by
    intro k hk
    refine List.mem_dedup.mpr ((run_within hrun).records k ?_)
    rcases List.mem_append.mp hk with hk | hk
    · obtain ⟨b, hb, rfl⟩ := List.mem_map.mp hk
      refine hkeyed.recorded_of_live ?_
      rw [s.live_book]
      exact hb
    · obtain ⟨f, hf, rfl⟩ := List.mem_map.mp hk
      exact hkeyed.recorded_of_fill hf
  have hle := (hkeyed.nodup_keys.subperm hsub).length_le
  rwa [List.length_append, List.length_map, List.length_map] at hle

theorem length_fills_le (hrun : Run config tr s) : s.fills.length ≤ config.totalSupply.val := by
  have htally : s.Tallied :=
    hrun.invariant (AuctionState.tallied_new config) fun _ _ _ _ h h' ↦ h.step h'
  have hle := length_le_sold htally.positive
  have hconserved := htally.conserved
  rw [run_config hrun] at hconserved
  omega

/-- **The state never outgrows the log.** Accounts are of participants that were funded or bid,
records are under keys that were bid under, and for each such key there is at most one bid in flight
or fill, and no more fills than there are units. -/
theorem state_within_log (hrun : Run config tr s) :
    (∀ p, s.collateral p ≠ none → p ∈ funded (tr.map Runs.Transition.input)) ∧
      (∀ k, s.outcomes k ≠ none → k ∈ bidKeys (tr.map Runs.Transition.input)) ∧
      s.liveBids.length + s.fills.length ≤
        (bidKeys (tr.map Runs.Transition.input)).dedup.length ∧
      s.fills.length ≤ config.totalSupply.val :=
  ⟨(run_within hrun).accounts, (run_within hrun).records, length_liveBids_add_fills_le hrun,
    length_fills_le hrun⟩

/-- Three bids were made, and one of them the clock never reached. -/
theorem state_within_log_sample :
    (play (.sample 0) sampleRecords).2.liveBids.length +
      (play (.sample 0) sampleRecords).2.fills.length ≤ 3 := by
  have hkeys : (bidKeys ((play (.sample 0) sampleRecords).1.map
      Runs.Transition.input)).dedup.length = 3 := by decide
  exact hkeys ▸ (state_within_log (run_play (.sample 0) sampleRecords)).2.2.1

end DutchAuction
